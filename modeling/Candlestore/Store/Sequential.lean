import Candlestore.Store.History
import Candlestore.Store.Interleaving

/-!
# One call at a time is one of the interleavings

`Candlestore.Store.Basic` runs a call to its end before the next one starts, and
keeps the entries in the map.  Here the two models of `try_append` are compared:
a call of the interleaved model that nobody interrupts does what the
single-threaded function does, counters included, and so every single-threaded
run is a run of the interleaved model.  The victim the interleaved model leaves
open is then the one of `evictKey`.
-/

namespace Candlestore.Concurrent

open Lib

variable {τ F : Type}

/-! ## Looking through the heap -/

/-- The entry the map leads to. -/
def entryAt (heap : List (Cell F)) (map : AList fun _ : Symbol => EntryId)
    (symbol : Symbol) : Option (Entry F) :=
  (map.lookup symbol).bind fun e => heap[e]?.map Cell.toEntry

section EntryAt

variable {heap : List (Cell F)} {map : AList fun _ : Symbol => EntryId}
  {marked : Option EntryId} {symbol : Symbol} {e : EntryId} {cell : Cell F}

theorem entryAt_of_lookup (hmap : map.lookup symbol = some e)
    (hcell : heap[e]? = some cell) : entryAt heap map symbol = some cell.toEntry := by
  rw [entryAt, hmap, Option.bind_some, hcell, Option.map_some]

theorem entryAt_erase (key symbol : Symbol) :
    entryAt heap (map.erase key) symbol =
      if symbol = key then none else entryAt heap map symbol := by
  by_cases hsym : symbol = key
  · rw [if_pos hsym, hsym, entryAt, AList.lookup_erase]
    rfl
  · rw [if_neg hsym, entryAt, AList.lookup_erase_ne hsym]
    rfl

namespace FlagInv

variable (h : FlagInv heap map marked)
include h

theorem entryAt_eq_none : entryAt heap map symbol = none ↔ map.lookup symbol = none := by
  cases hmap : map.lookup symbol with
  | none => simp [entryAt, hmap]
  | some e =>
      obtain ⟨cell, hcell, -⟩ := h.mapped symbol e hmap
      simp [entryAt_of_lookup hmap hcell]

theorem exists_cell {entry : Entry F} (hentry : entryAt heap map symbol = some entry) :
    ∃ e cell, map.lookup symbol = some e ∧ heap[e]? = some cell ∧
      cell.toEntry = entry := by
  cases hmap : map.lookup symbol with
  | none =>
      rw [entryAt, hmap] at hentry
      cases hentry
  | some e =>
      obtain ⟨cell, hcell, -⟩ := h.mapped symbol e hmap
      rw [entryAt_of_lookup hmap hcell] at hentry
      exact ⟨e, cell, rfl, hcell, Option.some.inj hentry⟩

/-- Different symbols have different entries, so an update is seen by one. -/
theorem entryAt_modify (hmap : map.lookup symbol = some e) (hcell : heap[e]? = some cell)
    (f : Cell F → Cell F) (k : Symbol) :
    entryAt (heap.modify e f) map k =
      if k = symbol then some (f cell).toEntry else entryAt heap map k := by
  by_cases hk : k = symbol
  · subst hk
    rw [if_pos rfl]
    exact entryAt_of_lookup hmap (getElem?_modify_self hcell)
  · rw [if_neg hk, entryAt, entryAt]
    cases hlook : map.lookup k with
    | none => rfl
    | some e' =>
        have hne : e ≠ e' := by
          rintro rfl
          exact hk ((h.symbol_eq hlook hcell).symm.trans (h.symbol_eq hmap hcell))
        simp only [Option.bind_some, List.getElem?_modify, if_neg hne, id_map']

theorem entryAt_insert (fresh : Entry F) (symbol k : Symbol) :
    entryAt (heap ++ [⟨fresh, symbol⟩]) (map.insert symbol heap.length) k =
      if k = symbol then some fresh else entryAt heap map k := by
  by_cases hk : k = symbol
  · subst hk
    rw [if_pos rfl]
    exact entryAt_of_lookup (AList.lookup_insert map) List.getElem?_concat_length
  · rw [if_neg hk, entryAt, entryAt, AList.lookup_insert_ne hk]
    cases hlook : map.lookup k with
    | none => rfl
    | some e =>
        obtain ⟨cell, hcell, -⟩ := h.mapped k e hlook
        have hlt := (List.getElem?_eq_some_iff.1 hcell).1
        rw [Option.bind_some, Option.bind_some, List.getElem?_append_left hlt]

end FlagInv

end EntryAt

/-- The store a memory stands for when no call is under way. -/
structure Represents (s : Store F) (m : Mem τ F) : Prop where
  lookup : ∀ symbol, s.map.lookup symbol = entryAt m.heap m.map symbol
  files : m.files = s.files
  counters : m.counters = ⟨s.version, s.tick, s.evictions, s.parquetSpillBytes,
    s.parquetSpillErrors, s.invalidCandles, s.outOfOrder⟩

theorem represents_new : Represents (Store.new : Store F) (Mem.new : Mem τ F) where
  lookup := fun _ => rfl
  files := rfl
  counters := rfl

section Represents

variable {s : Store F} {m : Mem τ F} {cfg : Config}

theorem Represents.keys_perm (hs : Represents s m) (h : MemInv cfg m) :
    s.map.keys.Perm m.map.keys := by
  refine (List.perm_ext_iff_of_nodup s.map.keys_nodup m.map.keys_nodup).2 fun k => ?_
  rw [← AList.mem_keys, ← AList.mem_keys, ← AList.lookup_isSome, ← AList.lookup_isSome,
    ← not_iff_not, Bool.not_eq_true, Bool.not_eq_true, Option.isSome_eq_false_iff,
    Option.isSome_eq_false_iff, Option.isNone_iff_eq_none, Option.isNone_iff_eq_none,
    hs.lookup k]
  exact h.flag.entryAt_eq_none

theorem keys_eq_nil_of_evictKey {map : AList fun _ : Symbol => Entry F}
    (h : evictKey map = none) : map.keys = [] := by
  rw [evictKey, Option.map_eq_none_iff, List.argmin_eq_none] at h
  rw [AList.keys, h]
  rfl

theorem MemInv.live_of_unlocked (h : MemInv cfg m) (hlock : m.lock = none)
    {symbol : Symbol} {e : EntryId} {cell : Cell F} (hmap : m.map.lookup symbol = some e)
    (hcell : m.heap[e]? = some cell) : cell.removed = false := by
  rw [h.flag.flag e cell hcell, h.flag.symbol_eq hmap hcell, (h.unlocked hlock).1]
  exact ⟨hmap, fun heq => by cases heq⟩

/-- The memory after a call has taken its tick. -/
def ticked (m : Mem τ F) : Mem τ F :=
  { m with toData := m.bumpTick }

/-- The memory in which the call has taken its tick, missed its symbol twice and
holds the lock. -/
def acquired (m : Mem τ F) (t : τ) : Mem τ F :=
  { ((ticked m).log (.lookup t none)).log (.lookup t none) with lock := some t }

theorem Represents.acquired (hs : Represents s m) (t : τ) :
    Represents { s with tick := s.tick + 1 } (Concurrent.acquired m t) where
  lookup := hs.lookup
  files := hs.files
  counters := by
    show { m.counters with tick := m.counters.tick + 1 } = _
    rw [hs.counters]

theorem Represents.insert {marked : Option EntryId} (hs : Represents s m)
    (h : FlagInv m.heap m.map marked) (t : τ) (symbol : Symbol) (candle : Candle F)
    (ring : RingBuffer F) (tick : Nat) :
    Represents (s.insertNew symbol ring tick)
      ((m.insert t symbol candle ⟨ring, tick, false⟩).publish t) where
  lookup := by
    intro k
    refine (lookup_insert_if _ _ k _).trans ?_
    refine Eq.trans ?_ (h.entryAt_insert ⟨ring, tick, false⟩ symbol k).symm
    rw [hs.lookup k]
  files := hs.files
  counters := by
    rw [Mem.counters_publish, Mem.counters_insert, hs.counters]
    rfl

section Evict

variable (hs : Represents s m) (h : FlagInv m.heap m.map none) {key : Symbol}
  {e : EntryId} {cell : Cell F} (hmap : m.map.lookup key = some e)
  (hcell : m.heap[e]? = some cell) (x : Entry F) (k : Symbol)
include hs h hmap hcell

theorem Represents.lookup_remove : ((s.map.insert key x).erase key).lookup k =
    entryAt (m.heap.modify e fun cell => { cell with removed := true })
    (m.map.erase key) k := by
  rw [entryAt_erase]
  by_cases hk : k = key
  · rw [if_pos hk, hk, AList.lookup_erase]
  · rw [if_neg hk, AList.lookup_erase_ne hk, AList.lookup_insert_ne hk, hs.lookup k,
      h.entryAt_modify hmap hcell, if_neg hk]

theorem Represents.lookup_restore :
    ((s.map.insert key x).insert key { cell.toEntry with removed := false }).lookup k =
      entryAt ((m.heap.modify e fun cell => { cell with removed := true }).modify e
        fun cell => { cell with removed := false }) m.map k := by
  rw [(FlagInv.mark h e).entryAt_modify hmap (getElem?_modify_self hcell),
    h.entryAt_modify hmap hcell, lookup_insert_if, lookup_insert_if, hs.lookup k]
  by_cases hk : k = key
  · rw [if_pos hk, if_pos hk]
  · rw [if_neg hk, if_neg hk, if_neg hk, if_neg hk]

end Evict

end Represents

/-! ## A call that nobody interrupts -/

/-- Nothing is written for an empty ring or without a data directory. -/
theorem beginSpill_skip {cfg : Config} {ch : Choice} (m : Mem τ F) (fresh : Entry F)
    {v : Victim F} (hskip : (v.snapshot.isEmpty || !cfg.dataDir) = true) :
    beginSpill cfg ch m fresh v = some (m, .install fresh (some v)) := by
  rw [beginSpill, Data.beginSpill]
  cases hvec : v.snapshot with
  | nil => rfl
  | cons c cs =>
      rw [hvec, List.isEmpty_cons, Bool.false_or, Bool.not_eq_true'] at hskip
      dsimp only
      rw [hskip]
      rfl

section Calls

variable [F64 F] {cfg : Config} {t : τ} {symbol : Symbol} {candle : Candle F}
  {m : Mem τ F} {s s' : Store F} {io : SpillIo} {r : Except AppendError Unit}

/-- The steps of `try_append` on their own. -/
def call (cfg : Config) (t : τ) (symbol : Symbol) (candle : Candle F)
    (s : Mem τ F × Pc F) (ch : Choice) : Option (Mem τ F × Pc F) :=
  appendStep cfg t ch symbol candle s.1 s.2

/-- Under the choice `ch` the call returns `r` and leaves the store `s'`. -/
def Returns (cfg : Config) (t : τ) (symbol : Symbol) (candle : Candle F)
    (start : Mem τ F × Pc F) (ch : Choice) (s' : Store F)
    (r : Except AppendError Unit) : Prop :=
  ∃ n m', exec (call cfg t symbol candle) start (List.replicate n ch) =
    some (m', .appended r) ∧ m'.lock = none ∧ Represents s' m'

theorem Returns.step {start next : Mem τ F × Pc F} {ch : Choice}
    (hstep : call cfg t symbol candle start ch = some next)
    (h : Returns cfg t symbol candle next ch s' r) :
    Returns cfg t symbol candle start ch s' r := by
  obtain ⟨n, m', hrun, hrest⟩ := h
  exact ⟨n + 1, m', exec_cons_eq_some.2 ⟨next, hstep, hrun⟩, hrest⟩

theorem Returns.done {start : Mem τ F × Pc F} {m' : Mem τ F} {ch : Choice}
    (hstep : call cfg t symbol candle start ch = some (m', .appended r))
    (hlock : m'.lock = none) (hs : Represents s' m') :
    Returns cfg t symbol candle start ch s' r :=
  ⟨1, m', exec_cons_eq_some.2 ⟨_, hstep, rfl⟩, hlock, hs⟩

theorem returns_invalid (hs : Represents s m) (hlock : m.lock = none)
    (hvalid : candle.isValid = false) (ch : Choice)
    (hcall : s.tryAppend cfg symbol candle io = some (s', r)) :
    Returns cfg t symbol candle (m, .idle) ch s' r := by
  rw [Store.tryAppend, hvalid] at hcall
  cases hcall
  have hstep : call cfg t symbol candle (m, .idle) ch =
      some (m.reject t symbol, .appended (.error (.invalidCandle symbol))) := by
    rw [call, appendStep, hvalid]
    rfl
  exact .done hstep hlock {
    lookup := hs.lookup
    files := hs.files
    counters := by rw [Mem.counters_reject, hs.counters] }

/-- The call takes its tick and looks its symbol up. -/
theorem returns_of_lookup (hvalid : candle.isValid = true) (hlock : m.lock = none)
    {ch : Choice} (h : Returns cfg t symbol candle
      ((ticked m).log (.lookup t (m.map.lookup symbol)),
        match m.map.lookup symbol with
        | some e => .touch m.counters.tick e
        | none => .insert m.counters.tick) ch s' r) :
    Returns cfg t symbol candle (m, .idle) ch s' r := by
  have hfree : ¬(ticked m).lock.isSome = true := by
    rw [show (ticked m).lock = none from hlock]
    exact Bool.false_ne_true
  have hbegin : call cfg t symbol candle (m, .idle) ch =
      some (ticked m, .lookup m.counters.tick) := if_pos hvalid
  exact .step hbegin (.step (if_neg hfree) h)

theorem returns_hit (h : MemInv cfg m) (hs : Represents s m) (hlock : m.lock = none)
    (hvalid : candle.isValid = true) {entry : Entry F}
    (hentry : s.map.lookup symbol = some entry) (ch : Choice)
    (hcall : s.tryAppend cfg symbol candle io = some (s', r)) :
    Returns cfg t symbol candle (m, .idle) ch s' r := by
  have hat := hentry
  rw [hs.lookup] at hat
  obtain ⟨e, cell, hmap, hcell, rfl⟩ := h.flag.exists_cell hat
  have hlive := h.live_of_unlocked hlock hmap hcell
  simp only [Store.tryAppend, hvalid, Bool.not_true, Bool.false_eq_true,
    if_false, hentry, Store.pushAndPublish, hlive, Option.some.injEq,
    Prod.mk.injEq] at hcall
  obtain ⟨rfl, rfl⟩ := hcall
  refine returns_of_lookup hvalid hlock ?_
  rw [hmap]
  let touched : Cell F := { cell with lastAccess := m.counters.tick }
  let m₁ : Mem τ F := ((ticked m).log (.lookup t (some e))).touch m.counters.tick e
  have htouched : m₁.heap[e]? = some touched := getElem?_modify_self hcell
  have hpush : call cfg t symbol candle (m₁, .push m.counters.tick e) ch =
      some (m₁.push t e touched symbol candle, .publish) := by
    rw [call, appendStep]
    dsimp only
    rw [htouched]
    exact if_neg fun hremoved => Bool.false_ne_true (hlive.symm.trans hremoved)
  refine .step rfl (.step hpush (.done rfl hlock ?_))
  exact {
    lookup := by
      intro k
      have hflag : FlagInv m₁.heap m.map m.marked :=
        h.flag.modify e _ (fun _ => rfl) fun _ => rfl
      refine (lookup_insert_if _ _ k _).trans ?_
      refine Eq.trans ?_ (hflag.entryAt_modify hmap htouched _ k).symm
      by_cases hk : k = symbol
      · rw [if_pos hk, if_pos hk]
        show _ = some (⟨(cell.buf.push candle).2, m.counters.tick,
          cell.removed⟩ : Entry F)
        rw [hs.counters, hlive]
      · rw [if_neg hk, if_neg hk, hs.lookup k]
        exact ((h.flag.entryAt_modify hmap hcell _ k).trans (if_neg hk)).symm
    files := hs.files
    counters := by
      simp only [Mem.publish, Mem.push, Mem.touch, Mem.log, ticked, m₁, touched,
        hs.counters, Data.publish, Data.push, Data.touch, Data.bumpTick]
      cases (cell.buf.push candle).1 <;> rfl }

/-! ## Insertion and eviction -/

section Slow

variable {ring : RingBuffer F} {ch : Choice} (hvalid : candle.isValid = true)
  (hlock : m.lock = none) (hmiss : m.map.lookup symbol = none)
  (hring : newRing cfg candle = some ring)
include hvalid hlock hmiss hring

theorem returns_of_beginInsert
    (h : ∃ p, beginInsert cfg t ch symbol
      ((ticked m).log (.lookup t none)) m.counters.tick ring = some (acquired m t, p) ∧
      Returns cfg t symbol candle (acquired m t, p) ch s' r) :
    Returns cfg t symbol candle (m, .idle) ch s' r := by
  obtain ⟨p, hbegin, hreturns⟩ := h
  have hfree : ¬((ticked m).log (.lookup t none)).lock.isSome = true := by
    rw [show ((ticked m).log (.lookup t none)).lock = none from hlock]
    exact Bool.false_ne_true
  refine returns_of_lookup hvalid hlock ?_
  rw [hmiss]
  refine .step ?_ hreturns
  rw [call, appendStep, hring]
  exact (if_neg hfree).trans hbegin

/-- There is room, or the map is empty. -/
theorem returns_fresh (h : MemInv cfg m) (hs : Represents s m)
    (hroom : ¬(cfg.maxSymbols ≤ m.map.keys.length ∧ m.map.keys ≠ [])) :
    Returns cfg t symbol candle (m, .idle) ch
      (Store.insertNew { s with tick := s.tick + 1 } symbol ring s.tick) (.ok ()) := by
  refine returns_of_beginInsert hvalid hlock hmiss hring
    ⟨.install ⟨ring, m.counters.tick, false⟩ none, ?_, ?_⟩
  · have hmissed : ((ticked m).log (.lookup t none)).map.lookup symbol = none := hmiss
    rw [beginInsert, hmissed]
    exact Option.map_eq_some_iff.2 ⟨_, if_neg hroom, rfl⟩
  · have htick : m.counters.tick = s.tick := by rw [hs.counters]
    rw [htick]
    exact .step rfl (.done rfl rfl
      ((hs.acquired t).insert h.flag t symbol candle ring s.tick))

end Slow

/-! ## Eviction -/

section Evict

variable {ring : RingBuffer F} {tick : Nat} {ch : Choice} {key : Symbol} {e : EntryId}
  {cell : Cell F}

theorem returns_install {v : Victim F} (hs : Represents s (m.remove t v))
    (h : FlagInv m.heap m.map (some v.entry))
    (hmap : m.map.lookup v.key = some v.entry) :
    Returns cfg t symbol candle (m, .install ⟨ring, tick, false⟩ (some v)) ch
      (s.insertNew symbol ring tick) (.ok ()) :=
  .step rfl (.done rfl rfl (hs.insert (h.remove hmap) t symbol candle ring tick))

section Spill

variable {fresh : Entry F} {v : Victim F} {files : List (ColdFile F)} {err : SpillError}

/-- A spill that gets as far as creating its file. -/
theorem call_create {c : Candle F} {cs : List (Candle F)} {name : List Char}
    (hdir : cfg.dataDir = true) (hio : ∀ err, ch.io ≠ .failBefore err)
    (hname : freeName m.files (escapeSymbol cfg.uni key) (tsStart c cs) (tsEnd c cs) =
      some name) :
    call cfg t symbol candle (m, .spill fresh ⟨key, e, c :: cs⟩) ch =
      some ({ m with files := createFile m.files (escapeSymbol cfg.uni key) name },
        .writing fresh ⟨key, e, c :: cs⟩ name) := by
  rw [call, appendStep, beginSpill, Data.beginSpill]
  dsimp only
  rw [if_pos hdir]
  cases hch : ch.io with
  | failBefore err => exact absurd hch (hio err)
  | ok | failAfter err =>
      dsimp only
      rw [hname]
      rfl

variable (hskip : ¬(v.snapshot.isEmpty || !cfg.dataDir) = true)
include hskip

/-- The steps of a spill that succeeds. -/
theorem returns_spill (hspill : spill cfg.uni m.files v.key v.snapshot ch.io =
    some (files, .ok ()))
    (h : Returns cfg t symbol candle ({ m with
      files := files
      counters := { m.counters with
        parquetSpillBytes :=
          m.counters.parquetSpillBytes + v.snapshot.length * candleBytes }
      pending := some v }, .install fresh (some v)) ch s' r) :
    Returns cfg t symbol candle (m, .spill fresh v) ch s' r := by
  obtain ⟨key, e, snapshot⟩ := v
  cases snapshot with
  | nil => exact absurd rfl hskip
  | cons c cs =>
      have hdir : cfg.dataDir = true := by simpa using hskip
      cases hio : ch.io with
      | ok =>
          rw [hio] at hspill
          obtain ⟨name, hname, hres⟩ := Option.bind_eq_some_iff.1 hspill
          cases hres
          refine .step (call_create hdir (fun err h => by rw [hio] at h; cases h) hname)
            (.step ?_ h)
          rw [call, appendStep]
          dsimp only
          rw [hio]
          rfl
      | failBefore err =>
          rw [hio] at hspill
          cases hspill
      | failAfter err =>
          rw [hio] at hspill
          obtain ⟨name, hname, hres⟩ := Option.bind_eq_some_iff.1 hspill
          cases hres

/-- The steps of a spill that fails, before or after its file was created. -/
theorem returns_spill_failed
    (hspill : spill cfg.uni m.files v.key v.snapshot ch.io = some (files, .error err))
    (h : Returns cfg t symbol candle ({ m with files := files }, .abort v err) ch s' r) :
    Returns cfg t symbol candle (m, .spill fresh v) ch s' r := by
  obtain ⟨key, e, snapshot⟩ := v
  cases snapshot with
  | nil => exact absurd rfl hskip
  | cons c cs =>
      have hdir : cfg.dataDir = true := by simpa using hskip
      cases hio : ch.io with
      | ok =>
          rw [hio] at hspill
          obtain ⟨name, hname, hres⟩ := Option.bind_eq_some_iff.1 hspill
          cases hres
      | failBefore err' =>
          rw [hio] at hspill
          cases hspill
          refine .step ?_ h
          rw [call, appendStep, beginSpill, Data.beginSpill]
          dsimp only
          rw [if_pos hdir, hio]
          rfl
      | failAfter err' =>
          rw [hio] at hspill
          obtain ⟨name, hname, hres⟩ := Option.bind_eq_some_iff.1 hspill
          cases hres
          refine .step (call_create hdir (fun err h => by rw [hio] at h; cases h) hname)
            (.step ?_ h)
          rw [call, appendStep]
          dsimp only
          rw [hio]

end Spill

/-- What becomes of the append after an eviction. -/
def afterEvict (s : Store F) (symbol : Symbol) (ring : RingBuffer F) (tick : Nat) :
    Except AppendError Unit → Store F
  | .ok () => s.insertNew symbol ring tick
  | .error _ => s

theorem returns_evict (hs : Represents s m) (h : FlagInv m.heap m.map none)
    (hmap : m.map.lookup key = some e) (hcell : m.heap[e]? = some cell)
    (hev : s.evict cfg key ch.io = some (s', r)) :
    Returns cfg t symbol candle (m, .evict ⟨ring, tick, false⟩ key e) ch
      (afterEvict s' symbol ring tick r) r := by
  have hkey : s.map.lookup key = some cell.toEntry := by
    rw [hs.lookup, entryAt_of_lookup hmap hcell]
  let v : Victim F := ⟨key, e, cell.buf.toVec⟩
  have hmark : call cfg t symbol candle (m, .evict ⟨ring, tick, false⟩ key e) ch =
      some (m.mark t e, .spill ⟨ring, tick, false⟩ v) := by
    rw [call, appendStep]
    dsimp only
    rw [hcell]
  have hflag := FlagInv.mark h e
  have hgone := hs.lookup_remove h hmap hcell { cell.toEntry with removed := true }
  refine .step hmark ?_
  rw [Store.evict, hkey] at hev
  by_cases hskip : (cell.buf.toVec.isEmpty || !cfg.dataDir) = true
  · dsimp only at hev
    rw [if_pos hskip] at hev
    cases hev
    refine .step (beginSpill_skip _ _ hskip) (returns_install ?_ hflag hmap)
    exact {
      lookup := hgone
      files := hs.files
      counters := by rw [Mem.counters_remove, Mem.counters_mark, hs.counters] }
  · dsimp only at hev
    rw [if_neg hskip] at hev
    obtain ⟨⟨files, result⟩, hspill, hrest⟩ := Option.bind_eq_some_iff.1 hev
    rw [← hs.files] at hspill
    cases result with
    | ok u =>
        cases hrest
        refine returns_spill hskip hspill (returns_install ?_ hflag hmap)
        exact {
          lookup := hgone
          files := rfl
          counters := by
            simp only [Mem.remove, Data.remove, Mem.mark, Data.mark, hs.counters, v] }
    | error err =>
        cases hrest
        refine returns_spill_failed hskip hspill (.done rfl rfl ?_)
        exact {
          lookup := hs.lookup_restore h hmap hcell { cell.toEntry with removed := true }
          files := rfl
          counters := by
            simp only [Mem.abort, Data.abort, Mem.mark, Data.mark, hs.counters]
            rfl }

end Evict

/-! ## The whole call -/

theorem newRing_of_pos (candle : Candle F) (hcap : 0 < cfg.ringCapacity) :
    newRing cfg candle = some (firstRing cfg hcap candle) :=
  dif_pos hcap

/-- A full store evicts the least recently used symbol. -/
theorem returns_full (h : MemInv cfg m) (hs : Represents s m) (hlock : m.lock = none)
    (hvalid : candle.isValid = true) (hmiss : m.map.lookup symbol = none)
    (hcap : 0 < cfg.ringCapacity) (hfull : cfg.maxSymbols ≤ m.map.keys.length)
    {key : Symbol} (hkey : evictKey s.map = some key)
    (hev : Store.evict cfg { s with tick := s.tick + 1 } key io = some (s', r)) :
    Returns cfg t symbol candle (m, .idle) ⟨key, io⟩
      (afterEvict s' symbol (firstRing cfg hcap candle) s.tick r) r := by
  obtain ⟨entry, hentry⟩ := evictKey_resident s.map key hkey
  rw [hs.lookup] at hentry
  obtain ⟨e, cell, hmap, hcell, -⟩ := h.flag.exists_cell hentry
  have hne : m.map.keys ≠ [] := by
    have hmem : key ∈ m.map := AList.lookup_isSome.1 (by rw [hmap]; rfl)
    exact List.ne_nil_of_mem (AList.mem_keys.1 hmem)
  have htick : m.counters.tick = s.tick := by rw [hs.counters]
  refine returns_of_beginInsert hvalid hlock hmiss (newRing_of_pos candle hcap)
    ⟨.evict ⟨firstRing cfg hcap candle, m.counters.tick, false⟩ key e, ?_, ?_⟩
  · have hmissed : ((ticked m).log (.lookup t none)).map.lookup symbol = none := hmiss
    rw [beginInsert, hmissed]
    refine Option.map_eq_some_iff.2 ⟨_, (if_pos ⟨hfull, hne⟩).trans ?_, rfl⟩
    exact Option.map_eq_some_iff.2 ⟨e, hmap, rfl⟩
  · rw [htick]
    have hflag : FlagInv m.heap m.map none := (h.unlocked hlock).1 ▸ h.flag
    exact returns_evict (hs.acquired t) hflag hmap hcell hev

/-- A call that nobody interrupts does what the single-threaded call does. -/
theorem tryAppend_returns (h : MemInv cfg m) (hs : Represents s m)
    (hlock : m.lock = none) (hcall : s.tryAppend cfg symbol candle io = some (s', r)) :
    ∃ ch, Returns cfg t symbol candle (m, .idle) ch s' r := by
  cases hvalid : candle.isValid with
  | false => exact ⟨⟨[], io⟩, returns_invalid hs hlock hvalid _ hcall⟩
  | true =>
      cases hget : s.map.lookup symbol with
      | some entry => exact ⟨⟨[], io⟩, returns_hit h hs hlock hvalid hget _ hcall⟩
      | none =>
          have hmiss : m.map.lookup symbol = none := by
            rw [← h.flag.entryAt_eq_none, ← hs.lookup, hget]
          have hkeys := (hs.keys_perm h).length_eq
          simp only [Store.tryAppend, hvalid, Bool.not_true, Bool.false_eq_true,
            if_false, hget,
            Store.tryInsertNew] at hcall
          by_cases hcap : 0 < cfg.ringCapacity
          · rw [dif_pos hcap] at hcall
            have hring := newRing_of_pos candle hcap
            split at hcall
            · rename_i hfull
              cases hkey : evictKey s.map with
              | none =>
                  rw [hkey] at hcall
                  cases hcall
                  have hempty : s.map.keys = [] := keys_eq_nil_of_evictKey hkey
                  rw [hempty, List.length_nil] at hkeys
                  have hnil := List.length_eq_zero_iff.1 hkeys.symm
                  exact ⟨⟨[], io⟩,
                    returns_fresh hvalid hlock hmiss hring h hs fun hroom =>
                    hroom.2 hnil⟩
              | some key =>
                  rw [hkey] at hcall
                  obtain ⟨⟨s₁, result⟩, hev, hrest⟩ := Option.bind_eq_some_iff.1 hcall
                  have hreturns := returns_full (t := t) h hs hlock hvalid hmiss hcap
                    (hkeys ▸ hfull) hkey hev
                  cases result <;> cases hrest <;> exact ⟨_, hreturns⟩
            · rename_i hroom
              cases hcall
              exact ⟨⟨[], io⟩, returns_fresh hvalid hlock hmiss hring h hs fun hfull =>
                hroom (hkeys ▸ hfull.1)⟩
          · rw [dif_neg hcap] at hcall
            cases hcall

end Calls

/-! ## Runs -/

section Runs

variable [F64 F] {cfg : Config} {s s' : Store F} {io : SpillIo}
  {r : Except AppendError Unit} {symbol : Symbol} {candle : Candle F}

/-- From a quiet state, the single-threaded call is a run of one thread. -/
theorem tryAppend_exec [DecidableEq τ] (order : τ → OsOrder F) {req : τ → Request F}
    {w : World (Mem τ F) (Pc F) τ} (h : WorldInv cfg req w) (hs : Represents s w.mem)
    (hlock : w.mem.lock = none) {t : τ} (hreq : req t = .append symbol candle)
    (hidle : w.pc t = .idle) (hcall : s.tryAppend cfg symbol candle io = some (s', r)) :
    ∃ as m, exec (turn (next cfg order req)) w as =
        some ⟨m, Function.update w.pc t (.appended r)⟩ ∧
      m.lock = none ∧ Represents s' m := by
  obtain ⟨ch, n, m, hrun, hfree, hs'⟩ := tryAppend_returns (t := t) h.mem hs hlock hcall
  have hsolo : solo (next cfg order req) t = call cfg t symbol candle := by
    funext p ch
    rw [solo, next, hreq]
    rfl
  rw [← hsolo] at hrun
  exact ⟨_, m, exec_solo hrun w rfl hidle, hfree, hs'⟩

/-- From a quiet state, a query that nobody interrupts answers as the
single-threaded one. -/
theorem range_exec [DecidableEq τ] (order : τ → OsOrder F) {req : τ → Request F}
    {w : World (Mem τ F) (Pc F) τ} (h : WorldInv cfg req w) (hs : Represents s w.mem)
    (hlock : w.mem.lock = none) {t : τ} {fromTs toTs : Int}
    (hreq : req t = .range symbol fromTs toTs) (hidle : w.pc t = .idle) :
    ∃ as, exec (turn (next cfg order req)) w as = some ⟨w.mem, Function.update w.pc t
      (.ranged (s.range cfg (order t) symbol fromTs toTs))⟩ := by
  let ch : Choice := ⟨[], .ok⟩
  have hsolo : ∀ m p, solo (next cfg order req) t (m, p) ch =
      rangeStep cfg (order t) symbol fromTs toTs m p := by
    intro m p
    rw [solo, next, hreq]
  have hlookup : solo (next cfg order req) t (w.mem, .idle) ch =
      some (w.mem, .rangeHot (w.mem.map.lookup symbol)) := by
    rw [hsolo, rangeStep, hlock]
    rfl
  obtain ⟨hot, hhot, hrange⟩ : ∃ hot,
      solo (next cfg order req) t (w.mem, .rangeHot (w.mem.map.lookup symbol)) ch =
        some (w.mem, .rangeCold hot) ∧
      s.range cfg (order t) symbol fromTs toTs =
        if cfg.dataDir then Store.joinHotCold hot
          (queryCold cfg.uni (order t) s.files symbol fromTs toTs) else hot := by
    rw [hsolo, Store.range, hs.lookup symbol]
    cases hmap : w.mem.map.lookup symbol with
    | none =>
        rw [entryAt, hmap]
        exact ⟨[], rfl, rfl⟩
    | some e =>
        obtain ⟨cell, hcell, -⟩ := h.mem.flag.mapped symbol e hmap
        rw [entryAt_of_lookup hmap hcell, rangeStep, hcell]
        exact ⟨_, rfl, rfl⟩
  have hcold : solo (next cfg order req) t (w.mem, .rangeCold hot) ch =
      some (w.mem, .ranged (s.range cfg (order t) symbol fromTs toTs)) := by
    rw [hsolo, rangeStep, hrange, hs.files]
  have hrun : exec (solo (next cfg order req) t) (w.mem, .idle) [ch, ch, ch] =
      some (w.mem, .ranged (s.range cfg (order t) symbol fromTs toTs)) :=
    exec_cons_eq_some.2 ⟨_, hlookup, exec_cons_eq_some.2 ⟨_, hhot,
      exec_cons_eq_some.2 ⟨_, hcold, rfl⟩⟩⟩
  exact ⟨_, exec_solo hrun w rfl hidle⟩

/-- The store `s` is what the interleaved model reaches when the threads
`0, 1, …` make these calls one after the other. -/
def Interleaves (cfg : Config) (s : Store F) (calls : List (Symbol × Candle F)) : Prop :=
  ∀ (order : ℕ → OsOrder F) (req : ℕ → Request F),
    (∀ i c, calls[i]? = some c → req i = .append c.1 c.2) →
    ∃ as w, exec (turn (next cfg order req)) start as = some w ∧
      (∀ i, calls.length ≤ i → w.pc i = .idle) ∧ w.mem.lock = none ∧ Represents s w.mem

theorem Interleaves.append {calls : List (Symbol × Candle F)}
    (h : Interleaves cfg s calls)
    (hcall : s.tryAppend cfg symbol candle io = some (s', r)) :
    Interleaves cfg s' (calls ++ [(symbol, candle)]) := by
  intro order req hreq
  have hlast : req calls.length = .append symbol candle :=
    hreq calls.length (symbol, candle) List.getElem?_concat_length
  have hinit : ∀ i c, calls[i]? = some c → req i = .append c.1 c.2 := by
    intro i c hi
    have hlt := (List.getElem?_eq_some_iff.1 hi).1
    exact hreq i c (by rwa [List.getElem?_append_left hlt])
  obtain ⟨as, w, hexec, hidle, hlock, hs⟩ := h order req hinit
  obtain ⟨bs, m, hbs, hfree, hs'⟩ :=
    tryAppend_exec order (WorldInv.of_exec hexec) hs hlock hlast
      (hidle _ le_rfl) hcall
  refine ⟨as ++ bs, _, exec_append_eq_some.2 ⟨w, hexec, hbs⟩, ?_, hfree, hs'⟩
  intro i hi
  rw [List.length_append, List.length_singleton] at hi
  exact (Function.update_of_ne (Nat.ne_of_gt hi) _ _).trans (hidle i (Nat.le_of_lt hi))

/-- Every single-threaded run is a run of the interleaved model. -/
theorem run_interleaves {h : Ledger F} (hrun : Run cfg s h) :
    ∃ calls, Interleaves cfg s calls := by
  induction hrun with
  | start =>
      exact ⟨[], fun order req _ => ⟨[], start, rfl,
        fun _ _ => rfl, rfl, represents_new⟩⟩
  | accepted symbol c io _ hcall ih =>
      obtain ⟨calls, hcalls⟩ := ih
      exact ⟨_, hcalls.append hcall⟩
  | rejected symbol c io err _ hcall ih =>
      obtain ⟨calls, hcalls⟩ := ih
      exact ⟨_, hcalls.append hcall⟩

end Runs

end Candlestore.Concurrent
