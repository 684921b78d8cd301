import Candlestore.Store.Memory

/-!
# What a call may rely on

`CallOk` says what a call may rely on at each program point.  A step of one
thread is seen by the others only through its `Effect`: it adds events of its
own, never pushes into a flagged entry, raises a flag only with a `snapshot`
event, and leaves the map, the files and the marks alone while another thread
holds the outer lock.  Every assertion about a call survives the effects of the
other calls.
-/

namespace Candlestore.Concurrent

open Lib

variable {τ F : Type}

/-! ## Assertions about a call -/

section Assertions

variable [DecidableEq τ] (cfg : Config) (t : τ) (symbol : Symbol) (candle : Candle F)
  (m : Mem τ F)

/-- The call has neither pushed nor returned, and does not hold the lock. -/
structure Before : Prop where
  lock : m.lock ≠ some t
  pushes : pushesBy t m.hist = []
  returns : returnsBy t m.hist = []

/-- The call has looked up `e` and done nothing since; if `e` is flagged now, an
eviction of it began after the lookup. -/
def Watching (e : EntryId) : Prop :=
  ∃ before after cell, m.hist = before ++ .lookup t (some e) :: after ∧
    (∀ ev ∈ after, ev.thread ≠ t) ∧ m.heap[e]? = some cell ∧ cell.symbol = symbol ∧
    (cell.removed = true → ∃ u, .snapshot u e ∈ after)

/-- The call holds the outer lock, has found its symbol missing and carries the
entry it will insert. -/
structure Holding (fresh : Entry F) : Prop where
  lock : m.lock = some t
  missing : m.map.lookup symbol = none
  pushes : pushesBy t m.hist = []
  returns : returnsBy t m.hist = []
  live : fresh.removed = false
  ring : fresh.buf.toVec = [candle]

/-- The victim is mapped, flagged and unchanged since its snapshot. -/
structure Marked (v : Victim F) : Prop where
  marked : m.marked = some v.entry
  mapped : m.map.lookup v.key = some v.entry
  cell : ∃ cell, m.heap[v.entry]? = some cell ∧ cell.removed = true ∧
    v.snapshot = cell.buf.toVec

/-- The call has pushed its candle once, into one entry. -/
structure Pushed : Prop where
  lock : m.lock ≠ some t
  pushes : ∃ e, pushesBy t m.hist = [(e, symbol, candle)]

/-- What `try_append(symbol, candle)` may rely on at each program point. -/
def AppendOk : Pc F → Prop
  | .idle => Before t m
  | .lookup _ => Before t m
  | .insert _ => Before t m
  | .touch _ e => Before t m ∧ Watching t symbol m e
  | .push _ e => Before t m ∧ Watching t symbol m e
  | .evict fresh key e => Holding t symbol candle m fresh ∧ m.marked = none ∧
      m.pending = none ∧ m.map.lookup key = some e
  | .spill fresh v => Holding t symbol candle m fresh ∧ Marked m v ∧ m.pending = none
  | .writing fresh v name => Holding t symbol candle m fresh ∧ Marked m v ∧
      m.pending = none ∧ Created cfg m.files v name
  | .install fresh none =>
      Holding t symbol candle m fresh ∧ m.marked = none ∧ m.pending = none
  | .install fresh (some v) => Holding t symbol candle m fresh ∧ Marked m v ∧
      (cfg.dataDir = true → m.pending = some v ∨ v.snapshot = [] ∧ m.pending = none)
  | .abort v _ =>
      (∃ fresh, Holding t symbol candle m fresh) ∧ Marked m v ∧ m.pending = none
  | .publish => Pushed t symbol candle m ∧ returnsBy t m.hist = []
  | .appended (.ok ()) => Pushed t symbol candle m ∧ returnsBy t m.hist = [.ok ()]
  | .appended (.error err) => m.lock ≠ some t ∧ pushesBy t m.hist = [] ∧
      returnsBy t m.hist = [.error err]
  | .panicked => Before t m
  | .rangeHot _ => False
  | .rangeCold _ => False
  | .ranged _ => False

/-- What a range query may rely on. -/
def RangeOk : Pc F → Prop
  | .idle => Before t m
  | .rangeHot (some e) => Before t m ∧ ∃ cell, m.heap[e]? = some cell
  | .rangeHot none => Before t m
  | .rangeCold _ => Before t m
  | .ranged _ => Before t m
  | _ => False

/-- The assertion for the request of the thread. -/
def CallOk (req : τ → Request F) (pc : Pc F) : Prop :=
  match req t with
  | .append symbol candle => AppendOk cfg t symbol candle m pc
  | .range _ _ _ => RangeOk t m pc

end Assertions

/-- The program point tells who holds the lock. -/
theorem CallOk.lock_iff [DecidableEq τ] {cfg : Config} {t : τ} {m : Mem τ F}
    {req : τ → Request F} {p : Pc F} (h : CallOk cfg t m req p) :
    m.lock = some t ↔ p.holds = true := by
  have hfree : ∀ {q : Pc F}, m.lock ≠ some t → q.holds = false →
      (m.lock = some t ↔ q.holds = true) := by
    intro q hlock hq
    exact iff_of_false hlock (by rw [hq]; exact Bool.false_ne_true)
  rw [CallOk] at h
  cases hreq : req t with
  | append symbol candle =>
      rw [hreq] at h
      cases p with
      | evict | spill | writing => exact iff_of_true h.1.lock rfl
      | install fresh victim => cases victim <;> exact iff_of_true h.1.lock rfl
      | abort v err =>
          obtain ⟨fresh, hh⟩ := h.1
          exact iff_of_true hh.lock rfl
      | idle | lookup | insert | panicked => exact hfree h.lock rfl
      | touch | push | publish => exact hfree h.1.lock rfl
      | appended result =>
          cases result with
          | ok => exact hfree h.1.lock rfl
          | error err => exact hfree h.1 rfl
      | rangeHot | rangeCold | ranged => exact h.elim
  | range symbol fromTs toTs =>
      rw [hreq] at h
      cases p with
      | rangeHot found =>
          cases found with
          | none => exact hfree h.lock rfl
          | some e => exact hfree h.1.lock rfl
      | idle | rangeCold | ranged => exact hfree h.lock rfl
      | _ => exact h.elim

/-! ## What other threads see of a step -/

/-- The effect on one entry of a step of `t` that logs `evs`, taken while the
lock was `lock`. -/
structure CellEffect (t : τ) (evs : List (Event τ F)) (lock : Option τ) (e : EntryId)
    (cell cell' : Cell F) : Prop where
  symbol : cell'.symbol = cell.symbol
  frozen : cell.removed = true → cell'.buf = cell.buf
  raised : cell'.removed = true → cell.removed = true ∨ .snapshot t e ∈ evs
  cleared : cell.removed = true → cell'.removed = true ∨ lock = some t

/-- What a step of `t` may do to the others: it adds its own events, keeps to the lock,
and loses no row on disk. -/
structure Effect (t : τ) (evs : List (Event τ F)) (m m' : Mem τ F) : Prop where
  hist : m'.hist = m.hist ++ evs
  mine : ∀ ev ∈ evs, ev.thread = t
  cells : ∀ e cell, m.heap[e]? = some cell →
    ∃ cell', m'.heap[e]? = some cell' ∧ CellEffect t evs m.lock e cell cell'
  guarded : ∀ u, u ≠ t → m.lock = some u → m'.map = m.map ∧ m'.files = m.files ∧
    m'.marked = m.marked ∧ m'.pending = m.pending ∧ m'.lock = some u
  lock : m'.lock = m.lock ∨ m.lock = none ∧ m'.lock = some t ∨ m.lock = some t ∧
    m'.lock = none
  rows : ∀ dir, stored m.files dir ⊆ stored m'.files dir
  version : m'.counters.version = m.counters.version + (accepters evs).length

theorem CellEffect.refl (t : τ) (evs : List (Event τ F)) (lock : Option τ) (e : EntryId)
    (cell : Cell F) : CellEffect t evs lock e cell cell :=
  ⟨rfl, fun _ => rfl, Or.inl, Or.inl⟩

namespace Effect

variable {t : τ} {m m' : Mem τ F} {evs : List (Event τ F)}

/-- A step that changes nothing but counters and the history. -/
theorem of_log (hheap : m'.heap = m.heap) (hmap : m'.map = m.map)
    (hfiles : m'.files = m.files) (hlock : m'.lock = m.lock)
    (hmarked : m'.marked = m.marked) (hpending : m'.pending = m.pending)
    (hhist : m'.hist = m.hist ++ evs)
    (hversion : m'.counters.version = m.counters.version + (accepters evs).length)
    (hmine : ∀ ev ∈ evs, ev.thread = t) : Effect t evs m m' where
  hist := hhist
  mine := hmine
  cells := fun e cell hcell => ⟨cell, by rw [hheap, hcell], .refl ..⟩
  guarded := fun _ _ hu => ⟨hmap, hfiles, hmarked, hpending, hlock.trans hu⟩
  lock := Or.inl hlock
  rows := fun dir => by rw [hfiles]; exact List.Subset.refl _
  version := hversion

/-- A step that updates one entry and logs. -/
theorem of_modify {e : EntryId} {f : Cell F → Cell F}
    (hheap : m'.heap = m.heap.modify e f) (hmap : m'.map = m.map)
    (hfiles : m'.files = m.files) (hlock : m'.lock = m.lock)
    (hmarked : m'.marked = m.marked) (hpending : m'.pending = m.pending)
    (hhist : m'.hist = m.hist ++ evs)
    (hversion : m'.counters.version = m.counters.version + (accepters evs).length)
    (hmine : ∀ ev ∈ evs, ev.thread = t)
    (hcell : ∀ cell, m.heap[e]? = some cell → CellEffect t evs m.lock e cell (f cell)) :
    Effect t evs m m' where
  hist := hhist
  mine := hmine
  cells := by
    intro e' cell hcell'
    rw [hheap, List.getElem?_modify, hcell']
    refine ⟨_, rfl, ?_⟩
    split
    · rename_i heq
      subst heq
      exact hcell cell hcell'
    · exact .refl ..
  guarded := fun _ _ hu => ⟨hmap, hfiles, hmarked, hpending, hlock.trans hu⟩
  lock := Or.inl hlock
  rows := fun dir => by rw [hfiles]; exact List.Subset.refl _
  version := hversion

/-- A step of the thread that holds the lock. -/
theorem of_holder (hheld : m.lock = some t) (hhist : m'.hist = m.hist ++ evs)
    (hversion : m'.counters.version = m.counters.version + (accepters evs).length)
    (hmine : ∀ ev ∈ evs, ev.thread = t)
    (hcells : ∀ e cell, m.heap[e]? = some cell →
      ∃ cell', m'.heap[e]? = some cell' ∧ CellEffect t evs m.lock e cell cell')
    (hlock : m'.lock = some t ∨ m'.lock = none)
    (hrows : ∀ dir, stored m.files dir ⊆ stored m'.files dir) : Effect t evs m m' where
  hist := hhist
  mine := hmine
  cells := hcells
  guarded := by
    intro u hu hlu
    rw [hheld] at hlu
    exact absurd (Option.some.inj hlu).symm hu
  lock := by
    rcases hlock with h | h
    · exact Or.inl (h.trans hheld.symm)
    · exact Or.inr (Or.inr ⟨hheld, h⟩)
  rows := hrows
  version := hversion

section Others

variable {u : τ} (h : Effect t evs m m') (hu : u ≠ t)
include h hu

theorem others : ∀ ev ∈ evs, ev.thread ≠ u := by
  intro ev hmem
  rw [h.mine ev hmem]
  exact Ne.symm hu

theorem lock_ne (hlock : m.lock ≠ some u) : m'.lock ≠ some u := by
  rcases h.lock with heq | ⟨-, heq⟩ | ⟨-, heq⟩
  · rwa [heq]
  · rw [heq]
    exact fun h => hu (Option.some.inj h).symm
  · rw [heq]
    exact fun h => by cases h

theorem keeps_marked {v : Victim F} (hlock : m.lock = some u) (hv : Marked m v) :
    Marked m' v := by
  obtain ⟨hmap, -, hmarked, -, -⟩ := h.guarded u hu hlock
  obtain ⟨cell, hcell, hrem, hsnap⟩ := hv.cell
  obtain ⟨cell', hcell', heff⟩ := h.cells _ _ hcell
  refine ⟨hmarked.trans hv.marked, by rw [hmap]; exact hv.mapped, cell', hcell', ?_, ?_⟩
  · rcases heff.cleared hrem with hstill | hheld
    · exact hstill
    · rw [hlock] at hheld
      exact absurd (Option.some.inj hheld) hu
  · rw [heff.frozen hrem]
    exact hsnap

theorem watching {symbol : Symbol} {e : EntryId} (hw : Watching u symbol m e) :
    Watching u symbol m' e := by
  obtain ⟨before, after, cell, hhist, hafter, hcell, hsym, hflag⟩ := hw
  obtain ⟨cell', hcell', heff⟩ := h.cells e cell hcell
  refine ⟨before, after ++ evs, cell', ?_, ?_, hcell', heff.symbol.trans hsym, ?_⟩
  · rw [h.hist, hhist, List.append_assoc, List.cons_append]
  · intro ev hmem
    rcases List.mem_append.1 hmem with hold | hnew
    · exact hafter ev hold
    · exact h.others hu ev hnew
  · intro hrem
    rcases heff.raised hrem with hold | hnew
    · obtain ⟨v, hv⟩ := hflag hold
      exact ⟨v, List.mem_append_left _ hv⟩
    · exact ⟨t, List.mem_append_right _ hnew⟩

end Others

end Effect

section Stability

variable [DecidableEq τ] {t u : τ} {m m' : Mem τ F} {evs : List (Event τ F)}

theorem pushesBy_append_of_ne (hist : List (Event τ F))
    (hevs : ∀ ev ∈ evs, ev.thread ≠ u) : pushesBy u (hist ++ evs) = pushesBy u hist := by
  rw [pushesBy, List.flatMap_append]
  refine (congrArg _ (List.flatMap_eq_nil_iff.2 ?_)).trans (List.append_nil _)
  intro ev hmem
  cases ev with
  | push t e symbol candle lost => exact if_neg (hevs _ hmem)
  | _ => rfl

theorem returnsBy_append_of_ne (hist : List (Event τ F))
    (hevs : ∀ ev ∈ evs, ev.thread ≠ u) :
    returnsBy u (hist ++ evs) = returnsBy u hist := by
  rw [returnsBy, List.flatMap_append]
  refine (congrArg _ (List.flatMap_eq_nil_iff.2 ?_)).trans (List.append_nil _)
  intro ev hmem
  cases ev with
  | returned t result => exact if_neg (hevs _ hmem)
  | _ => rfl

namespace Effect

variable (h : Effect t evs m m') (hu : u ≠ t)
include h hu

theorem pushesBy_eq : pushesBy u m'.hist = pushesBy u m.hist := by
  rw [h.hist]
  exact pushesBy_append_of_ne _ (h.others hu)

theorem returnsBy_eq : returnsBy u m'.hist = returnsBy u m.hist := by
  rw [h.hist]
  exact returnsBy_append_of_ne _ (h.others hu)

theorem before (hb : Before u m) : Before u m' where
  lock := h.lock_ne hu hb.lock
  pushes := (h.pushesBy_eq hu).trans hb.pushes
  returns := (h.returnsBy_eq hu).trans hb.returns

theorem pushed {symbol : Symbol} {candle : Candle F} (hp : Pushed u symbol candle m) :
    Pushed u symbol candle m' where
  lock := h.lock_ne hu hp.lock
  pushes := by
    rw [h.pushesBy_eq hu]
    exact hp.pushes

theorem holding {symbol : Symbol} {candle : Candle F} {fresh : Entry F}
    (hh : Holding u symbol candle m fresh) : Holding u symbol candle m' fresh := by
  obtain ⟨hmap, -, -, -, hlock⟩ := h.guarded u hu hh.lock
  exact { hh with
    lock := hlock
    missing := by rw [hmap]; exact hh.missing
    pushes := (h.pushesBy_eq hu).trans hh.pushes
    returns := (h.returnsBy_eq hu).trans hh.returns }

/-- A call's assertion survives the steps of the other calls. -/
theorem appendOk {cfg : Config} {symbol : Symbol} {candle : Candle F} {pc : Pc F}
    (hok : AppendOk cfg u symbol candle m pc) : AppendOk cfg u symbol candle m' pc := by
  cases pc with
  | idle | lookup | insert | panicked => exact h.before hu hok
  | touch | push => exact ⟨h.before hu hok.1, h.watching hu hok.2⟩
  | evict fresh key e =>
      obtain ⟨hh, hmarked, hpending, hkey⟩ := hok
      obtain ⟨hmap, -, hmk, hpd, -⟩ := h.guarded u hu hh.lock
      exact ⟨h.holding hu hh, hmk.trans hmarked,
        hpd.trans hpending, by rw [hmap]; exact hkey⟩
  | spill fresh v =>
      obtain ⟨hh, hv, hpending⟩ := hok
      obtain ⟨-, -, -, hpd, -⟩ := h.guarded u hu hh.lock
      exact ⟨h.holding hu hh, h.keeps_marked hu hh.lock hv, hpd.trans hpending⟩
  | writing fresh v name =>
      obtain ⟨hh, hv, hpending, hcreated⟩ := hok
      obtain ⟨-, hfiles, -, hpd, -⟩ := h.guarded u hu hh.lock
      exact ⟨h.holding hu hh, h.keeps_marked hu hh.lock hv, hpd.trans hpending,
        by rw [hfiles]; exact hcreated⟩
  | install fresh victim =>
      cases victim with
      | none =>
          obtain ⟨hh, hmarked, hpending⟩ := hok
          obtain ⟨-, -, hmk, hpd, -⟩ := h.guarded u hu hh.lock
          exact ⟨h.holding hu hh, hmk.trans hmarked, hpd.trans hpending⟩
      | some v =>
          obtain ⟨hh, hv, hpending⟩ := hok
          obtain ⟨-, -, -, hpd, -⟩ := h.guarded u hu hh.lock
          exact ⟨h.holding hu hh,
            h.keeps_marked hu hh.lock hv, by rw [hpd]; exact hpending⟩
  | abort v err =>
      obtain ⟨⟨fresh, hh⟩, hv, hpending⟩ := hok
      obtain ⟨-, -, -, hpd, -⟩ := h.guarded u hu hh.lock
      exact ⟨⟨fresh, h.holding hu hh⟩, h.keeps_marked hu hh.lock hv, hpd.trans hpending⟩
  | publish => exact ⟨h.pushed hu hok.1, (h.returnsBy_eq hu).trans hok.2⟩
  | appended result =>
      cases result with
      | ok => exact ⟨h.pushed hu hok.1, (h.returnsBy_eq hu).trans hok.2⟩
      | error err =>
          exact ⟨h.lock_ne hu hok.1, (h.pushesBy_eq hu).trans hok.2.1,
            (h.returnsBy_eq hu).trans hok.2.2⟩
  | rangeHot | rangeCold | ranged => exact hok

theorem rangeOk {pc : Pc F} (hok : RangeOk u m pc) : RangeOk u m' pc := by
  cases pc with
  | rangeHot found =>
      cases found with
      | none => exact h.before hu hok
      | some e =>
          obtain ⟨hb, cell, hcell⟩ := hok
          obtain ⟨cell', hcell', -⟩ := h.cells e cell hcell
          exact ⟨h.before hu hb, cell', hcell'⟩
  | idle | rangeCold | ranged => exact h.before hu hok
  | _ => exact hok

theorem callOk {cfg : Config} {req : τ → Request F} {pc : Pc F}
    (hok : CallOk cfg u m req pc) : CallOk cfg u m' req pc := by
  rw [CallOk] at hok ⊢
  cases hreq : req u with
  | append symbol candle =>
      rw [hreq] at hok
      exact h.appendOk hu hok
  | range symbol fromTs toTs =>
      rw [hreq] at hok
      exact h.rangeOk hu hok

end Effect

end Stability

end Candlestore.Concurrent
