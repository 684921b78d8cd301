import Candlestore.Store.Assertions

/-!
# Every interleaving keeps the invariants

`MemInv` collects the invariants of the memory.  Each operation keeps them, each
step of a call is `Sound`: it keeps the invariants, establishes the assertion of
its own call and has an effect the other calls tolerate.  So every state that
any interleaving reaches satisfies the invariants and the assertions of all
calls.
-/

namespace Candlestore.Concurrent

open Lib

variable {τ F : Type}

/-- The invariant of the shared memory. -/
structure MemInv (cfg : Config) (m : Mem τ F) : Prop where
  flag : FlagInv m.heap m.map m.marked
  ring : RingInv m.heap m.map m.hist
  trace : TraceInv m.heap m.hist
  cold : ColdInv cfg m.files m.pending m.hist
  unlocked : m.lock = none → m.marked = none ∧ m.pending = none

theorem MemInv.new (cfg : Config) : MemInv cfg (Mem.new : Mem τ F) where
  flag := {
    mapped := fun _ _ h => by cases h
    flag := fun _ _ h => by cases h }
  ring := {
    known := fun _ h => by cases h
    symbols := fun _ _ _ _ _ h => by cases h
    rings := fun _ _ h => by cases h
    conserved := fun _ => List.Perm.refl _
    evicted := fun _ _ h => by cases h
    snapshots := fun _ _ _ _ h => by cases h }
  trace := {
    explained := explained_nil
    live := fun _ _ h => by cases h }
  cold := {
    stored := fun _ _ => rfl
    advertised := fun _ h => by cases h }
  unlocked := fun _ => ⟨rfl, rfl⟩

/-! ## What each operation does to the memory -/

theorem Event.plain_of_subject?_eq_none {ev : Event τ F} (hev : ev.subject? = none) :
    ev.isPlain = true ∧ (∀ u e, ev ≠ .snapshot u e) ∧
      ∀ uni dir, evictedIn uni dir [ev] = [] := by
  cases ev with
  | lookup | retry | returned =>
      refine ⟨rfl, ?_, fun _ _ => rfl⟩
      exact fun _ _ heq => by cases heq
  | push | snapshot | aborted | evicted => cases hev

namespace MemInv

variable {cfg : Config} {m : Mem τ F} {t : τ}

theorem log (h : MemInv cfg m) {ev : Event τ F} (hev : ev.subject? = none)
    (hjust : Justified m.hist ev) : MemInv cfg (m.log ev) := by
  obtain ⟨hplain, hsnap, hcold⟩ := Event.plain_of_subject?_eq_none hev
  exact { h with
    ring := h.ring.log hplain fun e he => by rw [hev] at he; cases he
    trace := h.trace.log hsnap hjust
    cold := h.cold.log hcold }

theorem touch (h : MemInv cfg m) (tick : Nat) (e : EntryId) :
    MemInv cfg (m.touch tick e) :=
  { h with
    flag := h.flag.modify e _ (fun _ => rfl) fun _ => rfl
    ring := h.ring.modify e _ (fun _ => rfl) fun _ => rfl
    trace := h.trace.modify e _ fun _ => rfl }

theorem push (h : MemInv cfg m) {e : EntryId} {cell : Cell F}
    (hcell : m.heap[e]? = some cell) (hlive : cell.removed = false) (t : τ)
    (candle : Candle F) : MemInv cfg (m.push t e cell cell.symbol candle) :=
  { h with
    flag := h.flag.modify e _ (fun _ => rfl) fun _ => rfl
    ring := h.ring.push h.flag hcell (h.flag.lookup_of_live hcell hlive) t candle
    trace := h.trace.push hcell hlive t cell.symbol candle _
    cold := h.cold.log fun _ _ => rfl }

theorem mark (h : MemInv cfg m) (hlock : m.lock = some t) (hmarked : m.marked = none)
    {e : EntryId} {cell : Cell F} (hcell : m.heap[e]? = some cell) :
    MemInv cfg (m.mark t e) where
  flag := FlagInv.mark (hmarked ▸ h.flag) e
  ring := h.ring.mark (List.getElem?_eq_some_iff.1 hcell).1 t
  trace := h.trace.mark e t
  cold := h.cold.log fun _ _ => rfl
  unlocked := fun hnone => by rw [Mem.mark, hlock] at hnone; cases hnone

theorem write (h : MemInv cfg m) (hlock : m.lock = some t) (hpending : m.pending = none)
    {v : Victim F} {name : List Char} (hcreated : Created cfg m.files v name) :
    MemInv cfg (m.write cfg v name) :=
  { h with
    cold := ColdInv.write (hpending ▸ h.cold) hcreated
    unlocked := fun hnone => by rw [Mem.write, hlock] at hnone; cases hnone }

theorem hist_abort (m : Mem τ F) (t : τ) (v : Victim F) (err : SpillError) :
    (m.abort t v err).hist = m.hist ++ [.aborted t v.entry] ++
      [.returned t (.error (.evictionSpillFailed v.key v.snapshot.length err))] := by
  rw [Mem.abort, List.append_assoc, List.singleton_append]

theorem abort (h : MemInv cfg m) {v : Victim F} (hv : Marked m v)
    (hpending : m.pending = none) (t : τ) (err : SpillError) :
    MemInv cfg (m.abort t v err) := by
  obtain ⟨cell, hcell, -, -⟩ := hv.cell
  have hlt : v.entry < m.heap.length := (List.getElem?_eq_some_iff.1 hcell).1
  refine {
    flag := FlagInv.unmark (hv.marked ▸ h.flag) hv.mapped
    ring := ?_
    trace := ?_
    cold := ?_
    unlocked := fun _ => ⟨rfl, hpending⟩ }
  · rw [hist_abort]
    exact (h.ring.unmark hlt t).log rfl fun _ he => by cases he
  · rw [hist_abort]
    exact (h.trace.unmark v.entry t).log (fun _ _ heq => by cases heq) trivial
  · rw [hist_abort]
    exact (h.cold.log fun _ _ => rfl).log fun _ _ => rfl

theorem remove (h : MemInv cfg m) {v : Victim F} (hv : Marked m v)
    (hpending : cfg.dataDir = true → m.pending = some v ∨ v.snapshot = [] ∧
      m.pending = none)
    (t : τ) : MemInv cfg (m.remove t v) := by
  obtain ⟨cell, hcell, -, hsnap⟩ := hv.cell
  have hkey := h.flag.symbol_eq hv.mapped hcell
  exact {
    flag := FlagInv.remove (hv.marked ▸ h.flag) hv.mapped
    ring := by
      rw [Mem.remove, hsnap]
      exact h.ring.remove hv.mapped hcell hkey t
    trace := h.trace.log (fun _ _ h => by cases h) trivial
    cold := h.cold.remove hpending t
    unlocked := fun _ => ⟨rfl, rfl⟩ }

theorem insert (h : MemInv cfg m) {symbol : Symbol}
    (hmissing : m.map.lookup symbol = none) (hmarked : m.marked = none)
    (hpending : m.pending = none) {fresh : Entry F} (hlive : fresh.removed = false)
    {candle : Candle F} (hring : fresh.buf.toVec = [candle]) (t : τ) :
    MemInv cfg (m.insert t symbol candle fresh) where
  flag := by
    rw [Mem.insert, hmarked]
    exact FlagInv.insert (hmarked ▸ h.flag) hmissing hlive
  ring := h.ring.insert h.flag hmissing hring t
  trace := h.trace.insert h.ring fresh symbol candle t
  cold := h.cold.log fun _ _ => rfl
  unlocked := fun _ => ⟨hmarked, hpending⟩

end MemInv

/-! ## The steps of a call -/

/-- A step of `t` from `m` that leads to `m'` and `p'` keeps the invariants,
establishes the assertion of its own call, and can be told to the others. -/
structure Sound (cfg : Config) (t : τ) (m : Mem τ F) (ok : Mem τ F → Pc F → Prop)
    (m' : Mem τ F) (p' : Pc F) : Prop where
  inv : MemInv cfg m'
  ok : ok m' p'
  effect : ∃ evs, Effect t evs m m'

/-- A step that leaves the memory as it is. -/
theorem Sound.stay {cfg : Config} {t : τ} {m : Mem τ F} (h : MemInv cfg m)
    {ok : Mem τ F → Pc F → Prop} {p : Pc F} (hok : ok m p) : Sound cfg t m ok m p where
  inv := h
  ok := hok
  effect := ⟨[], .of_log rfl rfl rfl rfl rfl rfl (List.append_nil _).symm rfl
    (List.forall_mem_nil _)⟩

theorem Sound.of_log {cfg : Config} {t : τ} {m : Mem τ F} (h : MemInv cfg m)
    {ok : Mem τ F → Pc F → Prop} {ev : Event τ F} {p : Pc F} (hev : ev.subject? = none)
    (hacc : accepters [ev] = []) (hjust : Justified m.hist ev)
    (hmine : ev.thread = t) (hok : ok (m.log ev) p) : Sound cfg t m ok (m.log ev) p where
  inv := h.log hev hjust
  ok := hok
  effect := ⟨[ev], .of_log rfl rfl rfl rfl rfl rfl rfl (by rw [hacc]; rfl)
    (List.forall_mem_singleton.2 hmine)⟩

/-- A step of the holder that changes no entry, mark, map or history. -/
theorem Effect.of_files {t : τ} {m m' : Mem τ F} (hheld : m.lock = some t)
    (hhist : m'.hist = m.hist) (hheap : m'.heap = m.heap) (hlock : m'.lock = m.lock)
    (hversion : m'.counters.version = m.counters.version)
    (hrows : ∀ dir, stored m.files dir ⊆ stored m'.files dir) : Effect t [] m m' :=
  .of_holder hheld (hhist.trans (List.append_nil _).symm) hversion
    (List.forall_mem_nil _) (fun e cell hcell => ⟨cell, by rw [hheap, hcell], .refl ..⟩)
    (Or.inl (hlock.trans hheld)) hrows

/-- A lookup while the lock is free hands out a live entry. -/
theorem watching_lookup {cfg : Config} {t : τ} {symbol : Symbol} {m : Mem τ F}
    (h : MemInv cfg m) (hlock : m.lock = none) {e : EntryId}
    (hfound : m.map.lookup symbol = some e) :
    Watching t symbol (m.log (.lookup t (some e))) e := by
  obtain ⟨cell, hcell, hsym⟩ := h.flag.mapped symbol e hfound
  refine ⟨m.hist, [], cell, rfl, List.forall_mem_nil _, hcell, hsym, ?_⟩
  intro hrem
  have hmarked := (h.unlocked hlock).1
  have hlive := (h.flag.flag e cell hcell).2 ⟨hsym ▸ hfound, by simp [hmarked]⟩
  rw [hlive] at hrem
  cases hrem

section Own

variable [DecidableEq τ] {cfg : Config} {t : τ} {symbol : Symbol} {candle : Candle F}
  {m : Mem τ F}

theorem Before.log (hb : Before t m) {ev : Event τ F} (hpush : pushesBy t [ev] = [])
    (hret : returnsBy t [ev] = []) : Before t (m.log ev) where
  lock := hb.lock
  pushes := by
    rw [Mem.log, pushesBy, List.flatMap_append]
    exact (congrArg₂ (· ++ ·) hb.pushes hpush)
  returns := by
    rw [Mem.log, returnsBy, List.flatMap_append]
    exact (congrArg₂ (· ++ ·) hb.returns hret)

theorem pushesBy_push (hist : List (Event τ F)) (e : EntryId)
    (lost : Option (Candle F)) :
    pushesBy t (hist ++ [.push t e symbol candle lost]) =
      pushesBy t hist ++ [(e, symbol, candle)] :=
  (flatMap_snoc _ _ _).trans (congrArg _ (if_pos rfl))

theorem returnsBy_returned (hist : List (Event τ F)) (result : Except AppendError Unit) :
    returnsBy t (hist ++ [.returned t result]) = returnsBy t hist ++ [result] :=
  (flatMap_snoc _ _ _).trans (congrArg _ (if_pos rfl))

theorem sound_lookup_hit (h : MemInv cfg m) (hb : Before t m) (hlock : m.lock = none)
    {e : EntryId} (hfound : m.map.lookup symbol = some e) (tick : Nat) :
    Sound cfg t m (AppendOk cfg t symbol candle) (m.log (.lookup t (some e)))
      (.touch tick e) :=
  .of_log h rfl rfl trivial rfl ⟨hb.log rfl rfl, watching_lookup h hlock hfound⟩

theorem sound_touch (h : MemInv cfg m) (hb : Before t m) {e : EntryId}
    (hw : Watching t symbol m e) (tick : Nat) :
    Sound cfg t m (AppendOk cfg t symbol candle) (m.touch tick e) (.push tick e) where
  inv := h.touch tick e
  ok := by
    obtain ⟨before, after, cell, hhist, hafter, hcell, hsym, hflag⟩ := hw
    exact ⟨⟨hb.lock, hb.pushes, hb.returns⟩, before, after, _, hhist, hafter,
      getElem?_modify_self hcell, hsym, hflag⟩
  effect := ⟨[], .of_modify rfl rfl rfl rfl rfl rfl (List.append_nil _).symm rfl
    (List.forall_mem_nil _) fun _ _ => ⟨rfl, fun _ => rfl, Or.inl, Or.inl⟩⟩

theorem sound_retry (h : MemInv cfg m) (hb : Before t m) {e : EntryId}
    (hw : Watching t symbol m e) {cell : Cell F} (hcell : m.heap[e]? = some cell)
    (hrem : cell.removed = true) (tick : Nat) :
    Sound cfg t m (AppendOk cfg t symbol candle) (m.log (.retry t e))
    (.insert tick) := by
  obtain ⟨before, after, cell', hhist, hafter, hcell', -, hflag⟩ := hw
  rw [hcell] at hcell'
  cases hcell'
  exact .of_log h rfl rfl ⟨before, after, hhist, hafter, hflag hrem⟩ rfl (hb.log rfl rfl)

theorem sound_push (h : MemInv cfg m) (hb : Before t m) {e : EntryId}
    (hw : Watching t symbol m e) {cell : Cell F} (hcell : m.heap[e]? = some cell)
    (hlive : cell.removed = false) :
    Sound cfg t m (AppendOk cfg t symbol candle)
    (m.push t e cell symbol candle) .publish := by
  obtain ⟨-, -, cell', -, -, hcell', hsym, -⟩ := hw
  rw [hcell] at hcell'
  cases hcell'
  subst hsym
  refine ⟨h.push hcell hlive t candle, ⟨⟨hb.lock, e, ?_⟩, ?_⟩,
    [.push t e cell.symbol candle cell.buf.overwritten],
    .of_modify rfl rfl rfl rfl rfl rfl rfl ?_ (List.forall_mem_singleton.2 rfl) ?_⟩
  · rw [Mem.push, pushesBy_push, hb.pushes]
    rfl
  · exact ((flatMap_snoc _ _ _).trans (List.append_nil _)).trans hb.returns
  · exact Mem.version_push ..
  · intro cell' hcell'
    rw [hcell] at hcell'
    cases hcell'
    refine ⟨rfl, ?_, Or.inl, Or.inl⟩
    intro hrem
    rw [hlive] at hrem
    cases hrem

theorem sound_publish (h : MemInv cfg m) (hp : Pushed t symbol candle m)
    (hret : returnsBy t m.hist = []) :
    Sound cfg t m (AppendOk cfg t symbol candle) (m.publish t) (.appended (.ok ())) where
  inv :=
    { h.log (m := m) (rfl : (Event.returned t (.ok ())).subject? = none) trivial with }
  ok := by
    obtain ⟨e, he⟩ := hp.pushes
    refine ⟨⟨hp.lock, e, ?_⟩, ?_⟩
    · exact ((flatMap_snoc _ _ _).trans (List.append_nil _)).trans he
    · rw [Mem.publish, returnsBy_returned, hret]
      rfl
  effect := ⟨[.returned t (.ok ())],
    .of_log rfl rfl rfl rfl rfl rfl rfl rfl (List.forall_mem_singleton.2 rfl)⟩

theorem sound_reject (h : MemInv cfg m) (hb : Before t m) :
    Sound cfg t m (AppendOk cfg t symbol candle) (m.reject t symbol)
      (.appended (.error (.invalidCandle symbol))) where
  inv :=
    { h.log (m := m)
      (rfl : (Event.returned t (.error (.invalidCandle symbol))).subject? = none)
      trivial with }
  ok := by
    refine ⟨hb.lock, ?_, ?_⟩
    · exact ((flatMap_snoc _ _ _).trans (List.append_nil _)).trans hb.pushes
    · rw [Mem.reject, returnsBy_returned, hb.returns]
      rfl
  effect := ⟨[.returned t (.error (.invalidCandle symbol))],
    .of_log rfl rfl rfl rfl rfl rfl rfl rfl (List.forall_mem_singleton.2 rfl)⟩

/-! ### Under the outer lock -/

/-- The call takes the lock after a race check that missed. -/
theorem sound_acquire (h : MemInv cfg m) (hb : Before t m) (hlock : m.lock = none)
    (hmissing : m.map.lookup symbol = none) {fresh : Entry F}
    (hlive : fresh.removed = false) (hring : fresh.buf.toVec = [candle]) {p : Pc F}
    (hp : Holding t symbol candle { m.log (.lookup t none) with lock := some t } fresh →
      m.marked = none → m.pending = none →
      AppendOk cfg t symbol candle { m.log (.lookup t none) with lock := some t } p) :
    Sound cfg t m (AppendOk cfg t symbol candle)
      { m.log (.lookup t none) with lock := some t } p := by
  obtain ⟨hmarked, hpending⟩ := h.unlocked hlock
  have hlog := h.log (rfl : (Event.lookup t none).subject? = none) trivial
  have hbefore : Before t (m.log (.lookup t none)) := hb.log rfl rfl
  refine ⟨{ hlog with unlocked := fun hnone => by cases hnone }, hp ?_ hmarked hpending,
    [.lookup t none], ?_⟩
  · exact ⟨rfl, hmissing, hbefore.pushes, hbefore.returns, hlive, hring⟩
  · refine {
      hist := rfl
      mine := List.forall_mem_singleton.2 rfl
      cells := fun e cell hcell => ⟨cell, hcell, .refl ..⟩
      guarded := ?_
      lock := Or.inr (Or.inl ⟨hlock, rfl⟩)
      rows := fun _ => List.Subset.refl _
      version := rfl }
    intro u _ hu
    rw [hlock] at hu
    cases hu

theorem sound_mark (h : MemInv cfg m) {fresh : Entry F}
    (hh : Holding t symbol candle m fresh) (hmarked : m.marked = none)
    (hpending : m.pending = none) {key : Symbol} {e : EntryId}
    (hkey : m.map.lookup key = some e) {cell : Cell F} (hcell : m.heap[e]? = some cell) :
    Sound cfg t m (AppendOk cfg t symbol candle) (m.mark t e)
      (.spill fresh ⟨key, e, cell.buf.toVec⟩) where
  inv := h.mark hh.lock hmarked hcell
  ok := by
    refine ⟨{ hh with
      pushes := ((flatMap_snoc _ _ _).trans (List.append_nil _)).trans hh.pushes
      returns := ((flatMap_snoc _ _ _).trans (List.append_nil _)).trans hh.returns },
      ⟨rfl, hkey, _, getElem?_modify_self hcell, rfl, rfl⟩, hpending⟩
  effect := by
    refine ⟨[.snapshot t e],
      .of_holder hh.lock rfl rfl (List.forall_mem_singleton.2 rfl) ?_
        (Or.inl hh.lock) fun _ => List.Subset.refl _⟩
    intro e' cell' hcell'
    rw [Mem.heap_mark, List.getElem?_modify, hcell']
    refine ⟨_, rfl, ?_⟩
    split
    · rename_i heq
      subst heq
      exact ⟨rfl, fun _ => rfl, fun _ => Or.inr (List.mem_singleton.2 rfl),
        fun _ => Or.inl rfl⟩
    · exact .refl ..

theorem sound_create (h : MemInv cfg m) {fresh : Entry F} {v : Victim F}
    (hok : AppendOk cfg t symbol candle m (.spill fresh v)) {c : Candle F}
    {cs : List (Candle F)} (hsnap : v.snapshot = c :: cs) {name : List Char}
    (hname : freeName m.files (escapeSymbol cfg.uni v.key) (tsStart c cs) (tsEnd c cs) =
      some name) :
    Sound cfg t m (AppendOk cfg t symbol candle)
      { m with files := createFile m.files (escapeSymbol cfg.uni v.key) name }
      (.writing fresh v name) := by
  obtain ⟨hh, hv, hpending⟩ := hok
  obtain ⟨hcold, hfree⟩ := freeName_spec _ _ _ _ _ hname
  refine ⟨{ h with cold := h.cold.create hcold },
    ⟨{ hh with }, { hv with }, hpending, ?_⟩, [], .of_files hh.lock rfl rfl rfl rfl ?_⟩
  · refine ⟨⟨m.files, rfl, hfree⟩, ?_⟩
    rw [hsnap]
    exact advertised_candleTable _ name c cs hcold
  · intro dir
    rw [ColdInv.stored_createFile]
    exact List.Subset.refl _

theorem sound_write (h : MemInv cfg m) {fresh : Entry F} {v : Victim F}
    {name : List Char} (hok : AppendOk cfg t symbol candle m (.writing fresh v name)) :
    Sound cfg t m (AppendOk cfg t symbol candle) (m.write cfg v name)
      (.install fresh (some v)) := by
  obtain ⟨hh, hv, hpending, hcreated⟩ := hok
  refine ⟨h.write hh.lock hpending hcreated,
    ⟨{ hh with }, { hv with }, fun _ => Or.inl rfl⟩, [],
    .of_files hh.lock rfl rfl rfl rfl ?_⟩
  intro dir
  obtain ⟨⟨old, hfiles, hfree⟩, -⟩ := hcreated
  rw [Mem.files_write, hfiles, writeTable_createFile old _ name _ hfree,
    ColdInv.stored_createFile, stored_append]
  exact List.subset_append_left _ _

theorem sound_abort (h : MemInv cfg m) {v : Victim F} {err : SpillError}
    (hok : AppendOk cfg t symbol candle m (.abort v err)) :
    Sound cfg t m (AppendOk cfg t symbol candle) (m.abort t v err)
      (.appended (.error (.evictionSpillFailed v.key v.snapshot.length err))) := by
  obtain ⟨⟨fresh, hh⟩, hv, hpending⟩ := hok
  refine ⟨h.abort hv hpending t err, ⟨(fun hnone => by cases hnone), ?_, ?_⟩,
    [.aborted t v.entry, .returned t _], .of_holder hh.lock rfl rfl ?_ ?_ (Or.inr rfl)
      fun _ => List.Subset.refl _⟩
  · rw [Mem.abort, pushesBy, List.flatMap_append]
    exact (List.append_nil _).trans hh.pushes
  · rw [MemInv.hist_abort, returnsBy_returned]
    exact congrArg (· ++ _)
      (((flatMap_snoc _ _ _).trans (List.append_nil _)).trans hh.returns)
  · exact List.forall_mem_cons.2 ⟨rfl, List.forall_mem_singleton.2 rfl⟩
  · intro e cell hcell
    rw [Mem.heap_abort, List.getElem?_modify, hcell]
    refine ⟨_, rfl, ?_⟩
    split
    · exact ⟨rfl, fun _ => rfl, (fun hrem => by cases hrem), fun _ => Or.inr hh.lock⟩
    · exact .refl ..

/-- The insertion, from a memory in which no eviction is under way. -/
theorem sound_insert {m₀ : Mem τ F} (h : MemInv cfg m) {fresh : Entry F}
    (hh : Holding t symbol candle m fresh) (hmarked : m.marked = none)
    (hpending : m.pending = none) {evs : List (Event τ F)} (hheld : m₀.lock = some t)
    (hhist : m.hist = m₀.hist ++ evs) (hmine : ∀ ev ∈ evs, ev.thread = t)
    (hheap : m.heap = m₀.heap) (hfiles : m.files = m₀.files)
    (hversion : m.counters.version = m₀.counters.version + (accepters evs).length) :
    Sound cfg t m₀ (AppendOk cfg t symbol candle) (m.insert t symbol candle fresh)
      .publish := by
  refine ⟨h.insert hh.missing hmarked hpending hh.live hh.ring t,
    ⟨⟨(fun hnone => by cases hnone), m.heap.length, ?_⟩, ?_⟩,
    evs ++ [.push t m.heap.length symbol candle none],
    .of_holder hheld ?_ ?_ ?_ ?_ (Or.inr rfl) ?_⟩
  · rw [Mem.insert, pushesBy_push, hh.pushes]
    rfl
  · exact ((flatMap_snoc _ _ _).trans (List.append_nil _)).trans hh.returns
  · rw [Mem.insert, hhist, List.append_assoc]
  · rw [Mem.counters_insert, hversion, accepters, accepters, flatMap_snoc,
      List.append_nil]
  · exact List.forall_mem_append.2 ⟨hmine, List.forall_mem_singleton.2 rfl⟩
  · intro e cell hcell
    rw [← hheap] at hcell
    refine ⟨cell, ?_, .refl ..⟩
    exact (List.getElem?_append_left (List.getElem?_eq_some_iff.1 hcell).1).trans hcell
  · intro dir
    rw [← hfiles]
    exact List.Subset.refl _

theorem sound_evict_insert (h : MemInv cfg m) {fresh : Entry F} {v : Victim F}
    (hok : AppendOk cfg t symbol candle m (.install fresh (some v))) :
    Sound cfg t m (AppendOk cfg t symbol candle)
    ((m.remove t v).insert t symbol candle fresh)
      .publish := by
  obtain ⟨hh, hv, hpending⟩ := hok
  have hne : symbol ≠ v.key := by
    rintro rfl
    have hmapped := hv.mapped
    rw [hh.missing] at hmapped
    cases hmapped
  refine sound_insert (h.remove hv hpending t) ?_ rfl rfl hh.lock rfl
    (List.forall_mem_singleton.2 rfl) rfl rfl rfl
  exact { hh with
    missing := (AList.lookup_erase_ne hne).trans hh.missing
    pushes := ((flatMap_snoc _ _ _).trans (List.append_nil _)).trans hh.pushes
    returns := ((flatMap_snoc _ _ _).trans (List.append_nil _)).trans hh.returns }

variable {ch : Choice} {m' : Mem τ F} {p' : Pc F}

variable [F64 F]

theorem toVec_newRing {ring : RingBuffer F} (h : newRing cfg candle = some ring) :
    ring.toVec = [candle] := by
  rw [newRing] at h
  split at h
  · cases h
    exact RingBuffer.toVec_new_push _ _ candle
  · cases h

/-- Every step of an append is sound. -/
theorem sound_appendStep (h : MemInv cfg m) {p : Pc F}
    (hok : AppendOk cfg t symbol candle m p)
    (hstep : appendStep cfg t ch symbol candle m p = some (m', p')) :
    Sound cfg t m (AppendOk cfg t symbol candle) m' p' := by
  cases appendStep_move hstep with
  | begin =>
      exact ⟨{ h with }, { hok with }, [], .of_log rfl rfl rfl rfl rfl rfl
        (List.append_nil _).symm rfl (List.forall_mem_nil _)⟩
  | reject => exact sound_reject h hok
  | hit tick e hlock hfound => exact sound_lookup_hit h hok hlock hfound tick
  | miss tick => exact .of_log h rfl rfl trivial rfl (Before.log hok rfl rfl)
  | touch tick e => exact sound_touch h hok.1 hok.2 tick
  | retry tick e cell hcell hrem => exact sound_retry h hok.1 hok.2 hcell hrem tick
  | push tick e cell hcell hlive => exact sound_push h hok.1 hok.2 hcell hlive
  | panic tick => exact .stay h hok
  | raceHit tick e hlock hfound => exact sound_lookup_hit h hok hlock hfound tick
  | acquireFull tick ring e hring hlock hmissing hkey =>
      exact sound_acquire h hok hlock hmissing rfl (toVec_newRing hring)
        fun hh hmarked hpending => ⟨hh, hmarked, hpending, hkey⟩
  | acquireFree tick ring hring hlock hmissing =>
      exact sound_acquire h hok hlock hmissing rfl (toVec_newRing hring)
        fun hh hmarked hpending => ⟨hh, hmarked, hpending⟩
  | mark fresh key e cell hcell =>
      obtain ⟨hh, hmarked, hpending, hkey⟩ := hok
      exact sound_mark h hh hmarked hpending hkey hcell
  | skipSpill fresh v hskip =>
      obtain ⟨hh, hv, hpending⟩ := hok
      refine .stay h ⟨hh, hv, fun hdir => .inr ⟨?_, hpending⟩⟩
      exact hskip.resolve_right fun hnone => by cases hdir.symm.trans hnone
  | failBefore fresh v err => exact .stay h ⟨⟨fresh, hok.1⟩, hok.2.1, hok.2.2⟩
  | create fresh v c cs name hsnap hname => exact sound_create h hok hsnap hname
  | write fresh v name => exact sound_write h hok
  | failAfter fresh v name err => exact .stay h ⟨⟨fresh, hok.1⟩, hok.2.1, hok.2.2.1⟩
  | install fresh =>
      obtain ⟨hh, hmarked, hpending⟩ := hok
      exact sound_insert h hh hmarked hpending hh.lock (List.append_nil _).symm
        (List.forall_mem_nil _) rfl rfl rfl
  | replace fresh v => exact sound_evict_insert h hok
  | abort v err => exact sound_abort h hok
  | publish => exact sound_publish h hok.1 hok.2

/-- Range queries change nothing. -/
theorem sound_rangeStep (h : MemInv cfg m) {o : OsOrder F} {fromTs toTs : Int} {p : Pc F}
    (hok : RangeOk t m p)
    (hstep : rangeStep cfg o symbol fromTs toTs m p = some (m', p')) :
    m' = m ∧ RangeOk t m p' := by
  cases p with
  | idle =>
      rw [rangeStep] at hstep
      split at hstep
      · cases hstep
      · cases hfound : m.map.lookup symbol with
        | none =>
            rw [hfound] at hstep
            cases hstep
            exact ⟨rfl, hok⟩
        | some e =>
            rw [hfound] at hstep
            cases hstep
            obtain ⟨cell, hcell, -⟩ := h.flag.mapped symbol e hfound
            exact ⟨rfl, hok, cell, hcell⟩
  | rangeHot found =>
      cases found with
      | none =>
          cases hstep
          exact ⟨rfl, hok⟩
      | some e =>
          rw [rangeStep] at hstep
          split at hstep
          · cases hstep
            exact ⟨rfl, hok.1⟩
          · cases hstep
  | rangeCold hot =>
      cases hstep
      exact ⟨rfl, hok⟩
  | ranged => cases hstep
  | _ => exact hok.elim

theorem sound_next {order : τ → OsOrder F} {req : τ → Request F} (h : MemInv cfg m)
    {p : Pc F} (hok : CallOk cfg t m req p)
    (hstep : next cfg order req t ch m p = some (m', p')) :
    Sound cfg t m (fun m p => CallOk cfg t m req p) m' p' := by
  rw [next] at hstep
  rw [CallOk] at hok
  cases hreq : req t with
  | append symbol candle =>
      rw [hreq] at hstep hok
      have hsound := sound_appendStep h hok hstep
      refine ⟨hsound.inv, ?_, hsound.effect⟩
      rw [CallOk, hreq]
      exact hsound.ok
  | range symbol fromTs toTs =>
      rw [hreq] at hstep hok
      obtain ⟨rfl, hok'⟩ := sound_rangeStep h hok hstep
      refine .stay h ?_
      rw [CallOk, hreq]
      exact hok'

end Own

/-! ## Runs -/

section Runs

variable [DecidableEq τ] {cfg : Config} {req : τ → Request F}
  {w w' : World (Mem τ F) (Pc F) τ}

/-- The invariants of the memory and the assertions of all calls. -/
def WorldInv (cfg : Config) (req : τ → Request F) (w : World (Mem τ F) (Pc F) τ) :
    Prop :=
  Annotated (MemInv cfg) (fun t m p => CallOk cfg t m req p) w

theorem WorldInv.start : WorldInv cfg req start where
  mem := .new cfg
  pcs := by
    intro t
    have hb : Before t (Mem.new : Mem τ F) := ⟨(fun h => by cases h), rfl, rfl⟩
    rw [CallOk]
    cases req t <;> exact hb

variable [F64 F] {order : τ → OsOrder F}

theorem WorldInv.step (h : WorldInv cfg req w) {a : Turn τ Choice}
    (hstep : turn (next cfg order req) w a = some w') : WorldInv cfg req w' := by
  refine Annotated.turn ?_ ?_ h hstep
  · intro t ch m p m' p' hm hok hnext
    exact ⟨(sound_next hm hok hnext).inv, (sound_next hm hok hnext).ok⟩
  · intro t ch m p m' p' u q hu hm hok hnext hq
    obtain ⟨evs, heff⟩ := (sound_next hm hok hnext).effect
    exact heff.callOk hu hq

/-- Every reachable state satisfies the invariants. -/
theorem WorldInv.of_exec {as : List (Turn τ Choice)}
    (hrun : exec (turn (next cfg order req)) Concurrent.start as = some w) :
    WorldInv cfg req w :=
  exec_invariant (fun _ _ _ h hstep => h.step hstep) hrun .start

end Runs

end Candlestore.Concurrent
