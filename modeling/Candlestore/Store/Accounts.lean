import Mathlib.Algebra.BigOperators.Group.Finset.Piecewise
import Mathlib.Algebra.Order.BigOperators.Group.Finset
import Candlestore.Store.Conservation
import Candlestore.Store.Reads

/-!
# The counters of the store balance

`snapshot` exports the counters of a store that other threads are using.  This file says
what they count, in every state that any interleaving reaches: every call that has
returned is in exactly one of `version`, `invalid_candles` and `parquet_spill_errors`;
every entry ever inserted is resident or in `evictions`, and never more than
`max_symbols` are resident; the spilled bytes are those of the rows that can be read
from disk; and `out_of_order` counts the pushes that went back behind the one before
them into the same entry.  The last is per entry and not per symbol: a symbol that comes
back after its eviction starts a new ring, which knows nothing of the old one.
-/

namespace Candlestore.Concurrent

open Lib

variable {τ F : Type}

deriving instance DecidableEq for Counters

/-! ## What is counted -/

/-- A call has returned. -/
def Event.isReturn : Event τ F → Bool
  | .returned _ _ => true
  | _ => false

/-- A call was refused for its candle. -/
def Event.isInvalid : Event τ F → Bool
  | .returned _ (.error (.invalidCandle _)) => true
  | _ => false

/-- A call was refused because a spill failed. -/
def Event.isFailure : Event τ F → Bool
  | .returned _ (.error (.evictionSpillFailed _ _ _)) => true
  | _ => false

/-- A candle entered a ring. -/
def Event.isPush : Event τ F → Bool
  | .push _ _ _ _ _ => true
  | _ => false

/-- How often a sequence goes back in time. -/
def lateCount : List (Candle F) → Nat
  | a :: b :: l => (if b.ts < a.ts then 1 else 0) + lateCount (b :: l)
  | _ => 0

/-- Late pushes, over all entries there ever were. -/
def lateTotal (entries : Nat) (hist : List (Event τ F)) : Nat :=
  ∑ e ∈ Finset.range entries, lateCount (pushesTo e hist)

/-- The rows that can be read from the cold directories. -/
def rowsOnDisk (files : List (ColdFile F)) : List (Candle F) := files.flatMap fileRows

theorem lateCount_snoc (l : List (Candle F)) (c : Candle F) :
    lateCount (l ++ [c]) =
      lateCount l + (l.getLast?.any fun p => decide (c.ts < p.ts)).toNat := by
  induction l with
  | nil => rfl
  | cons a l ih =>
      cases l with
      | nil =>
          by_cases h : c.ts < a.ts <;> simp [lateCount, h]
      | cons b l =>
          rw [List.getLast?_cons_cons, List.cons_append, List.cons_append, lateCount,
            ← List.cons_append, ih, lateCount]
          omega

/-- One more push into `e` is late if the candle before it was newer. -/
theorem lateTotal_push {entries : Nat} {hist : List (Event τ F)} {e : EntryId}
    (he : e < entries) (t : τ) (symbol : Symbol) (candle : Candle F)
    (lost : Option (Candle F)) :
    lateTotal entries (hist ++ [.push t e symbol candle lost]) = lateTotal entries hist +
      ((pushesTo e hist).getLast?.any fun p => decide (candle.ts < p.ts)).toNat := by
  have hterm : ∀ x, lateCount (pushesTo x (hist ++ [.push t e symbol candle lost])) =
      lateCount (pushesTo x hist) +
        if x = e then
          ((pushesTo e hist).getLast?.any fun p => decide (candle.ts < p.ts)).toNat
        else 0 := by
    intro x
    rw [pushesTo_push]
    by_cases hx : x = e
    · subst hx
      rw [if_pos rfl, if_pos rfl, lateCount_snoc]
    · rw [if_neg (Ne.symm hx), if_neg hx, List.append_nil, Nat.add_zero]
  unfold lateTotal
  simp only [hterm]
  rw [Finset.sum_add_distrib, Finset.sum_ite_eq', if_pos (Finset.mem_range.2 he)]

theorem lateTotal_log {entries : Nat} {hist : List (Event τ F)} {ev : Event τ F}
    (hev : ev.isPush = false) :
    lateTotal entries (hist ++ [ev]) = lateTotal entries hist := by
  unfold lateTotal
  refine Finset.sum_congr rfl fun e _ => ?_
  have hnone : pushesTo e (hist ++ [ev]) = pushesTo e hist := by
    cases ev with
    | push => cases hev
    | _ => exact (flatMap_snoc _ _ _).trans (List.append_nil _)
  rw [hnone]

/-! ## The memory -/

/-- Each counter, against the history of the store. -/
structure Tally (m : Mem τ F) : Prop where
  invalid : m.counters.invalidCandles = m.hist.countP Event.isInvalid
  failures : m.counters.parquetSpillErrors = m.hist.countP Event.isFailure
  entries : m.map.keys.length + m.counters.evictions = m.heap.length
  bytes : m.counters.parquetSpillBytes = (rowsOnDisk m.files).length * candleBytes
  late : m.counters.outOfOrder = lateTotal m.heap.length m.hist
  newest : ∀ (e : EntryId) (cell : Cell F), m.heap[e]? = some cell →
    cell.buf.lastTs = (pushesTo e m.hist).getLast?.map Candle.ts

theorem Tally.new : Tally (Mem.new : Mem τ F) where
  invalid := rfl
  failures := rfl
  entries := rfl
  bytes := rfl
  late := rfl
  newest _ _ h := by cases h

/-- A step that logs `evs` and neither pushes a candle nor maps,
drops or spills an entry. -/
structure Quiet (m m' : Mem τ F) (evs : List (Event τ F)) : Prop where
  hist : m'.hist = m.hist ++ evs
  unpushed : ∀ ev ∈ evs, ev.isPush = false
  heap : ∀ (e : EntryId) (cell : Cell F), m'.heap[e]? = some cell →
    ∃ old, m.heap[e]? = some old ∧ cell.buf = old.buf
  length : m'.heap.length = m.heap.length
  map : m'.map = m.map
  rows : rowsOnDisk m'.files = rowsOnDisk m.files
  invalid : m'.counters.invalidCandles =
    m.counters.invalidCandles + evs.countP Event.isInvalid
  failures :
    m'.counters.parquetSpillErrors =
      m.counters.parquetSpillErrors + evs.countP Event.isFailure
  evictions : m'.counters.evictions = m.counters.evictions
  bytes : m'.counters.parquetSpillBytes = m.counters.parquetSpillBytes
  late : m'.counters.outOfOrder = m.counters.outOfOrder

theorem pushesTo_unpushed {hist evs : List (Event τ F)}
    (h : ∀ ev ∈ evs, ev.isPush = false) (e : EntryId) :
    pushesTo e (hist ++ evs) = pushesTo e hist := by
  have hnone : pushesTo e evs = [] := by
    refine List.flatMap_eq_nil_iff.2 fun ev hev => ?_
    have hpush := h ev hev
    cases ev with
    | push => cases hpush
    | _ => rfl
  rw [pushesTo, List.flatMap_append]
  exact (congrArg _ hnone).trans (List.append_nil _)

theorem Tally.quiet {m m' : Mem τ F} {evs : List (Event τ F)} (h : Tally m)
    (hq : Quiet m m' evs) : Tally m' where
  invalid := by rw [hq.invalid, hq.hist, List.countP_append, h.invalid]
  failures := by rw [hq.failures, hq.hist, List.countP_append, h.failures]
  entries := by rw [hq.map, hq.evictions, hq.length, h.entries]
  bytes := by rw [hq.bytes, hq.rows, h.bytes]
  late := by
    rw [hq.late, hq.length, hq.hist, h.late]
    unfold lateTotal
    simp only [pushesTo_unpushed hq.unpushed]
  newest e cell hcell := by
    obtain ⟨old, hold, hbuf⟩ := hq.heap e cell hcell
    rw [hbuf, hq.hist, pushesTo_unpushed hq.unpushed]
    exact h.newest e old hold

theorem Quiet.of_log {m : Mem τ F} {ev : Event τ F} (hpush : ev.isPush = false)
    (hreturn : ev.isReturn = false) : Quiet m (m.log ev) [ev] where
  hist := rfl
  unpushed := List.forall_mem_singleton.2 hpush
  heap _ cell hcell := ⟨cell, hcell, rfl⟩
  length := rfl
  map := rfl
  rows := rfl
  invalid := by cases ev <;> first | rfl | cases hreturn
  failures := by cases ev <;> first | rfl | cases hreturn
  evictions := rfl
  bytes := rfl
  late := rfl

/-- A change of an entry that leaves its ring alone. -/
theorem Quiet.of_modify {m m' : Mem τ F} {evs : List (Event τ F)} {e : EntryId}
    {f : Cell F → Cell F} (hheap : m'.heap = m.heap.modify e f)
    (hbuf : ∀ cell, (f cell).buf = cell.buf) (hist : m'.hist = m.hist ++ evs)
    (hunpushed : ∀ ev ∈ evs, ev.isPush = false) (hmap : m'.map = m.map)
    (hfiles : m'.files = m.files)
    (hinvalid : m'.counters.invalidCandles =
      m.counters.invalidCandles + evs.countP Event.isInvalid)
    (hfailures : m'.counters.parquetSpillErrors =
      m.counters.parquetSpillErrors + evs.countP Event.isFailure)
    (hevictions : m'.counters.evictions = m.counters.evictions)
    (hbytes : m'.counters.parquetSpillBytes = m.counters.parquetSpillBytes)
    (hlate : m'.counters.outOfOrder = m.counters.outOfOrder) : Quiet m m' evs where
  hist := hist
  unpushed := hunpushed
  heap e' cell hcell := by
    rw [hheap] at hcell
    obtain ⟨old, hold, ⟨-, rfl⟩ | ⟨-, rfl⟩⟩ := getElem?_modify_some hcell
    · exact ⟨old, hold, hbuf old⟩
    · exact ⟨cell, hold, rfl⟩
  length := by rw [hheap, List.length_modify]
  map := hmap
  rows := by rw [hfiles]
  invalid := hinvalid
  failures := hfailures
  evictions := hevictions
  bytes := hbytes
  late := hlate

/-- The push counts a candle that is older than the last one of its ring. -/
theorem counters_push {m : Mem τ F} {t : τ} {e : EntryId} {cell : Cell F}
    {symbol : Symbol} {candle : Candle F} :
    (m.push t e cell symbol candle).counters =
      { m.counters with
        outOfOrder := m.counters.outOfOrder +
          (cell.buf.lastTs.any fun prev => decide (candle.ts < prev)).toNat } := by
  unfold Mem.push Data.push RingBuffer.push
  cases hlast : cell.buf.lastTs with
  | none => rfl
  | some prev =>
      by_cases hlate : candle.ts < prev
      · simp [hlate]
      · simp [hlate]

theorem Tally.push {m : Mem τ F} {e : EntryId} {cell : Cell F} (h : Tally m)
    (hcell : m.heap[e]? = some cell) (t : τ) (symbol : Symbol) (candle : Candle F) :
    Tally (m.push t e cell symbol candle) := by
  have hlt : e < m.heap.length := (List.getElem?_eq_some_iff.1 hcell).1
  have hhist : (m.push t e cell symbol candle).hist =
      m.hist ++ [.push t e symbol candle cell.buf.overwritten] := rfl
  have hlen : (m.push t e cell symbol candle).heap.length = m.heap.length :=
    List.length_modify ..
  refine ⟨?_, ?_, ?_, ?_, ?_, ?_⟩
  · rw [counters_push, hhist, List.countP_append]
    exact h.invalid
  · rw [counters_push, hhist, List.countP_append]
    exact h.failures
  · rw [counters_push, hlen]
    exact h.entries
  · rw [counters_push]
    exact h.bytes
  · rw [counters_push, hhist, hlen, lateTotal_push hlt, ← h.late, h.newest e cell hcell,
      Option.any_map]
  · intro e' cell' hcell'
    rw [hhist, pushesTo_push]
    obtain ⟨old, hold, ⟨rfl, rfl⟩ | ⟨hne, rfl⟩⟩ := getElem?_modify_some hcell'
    · rw [if_pos rfl, List.getLast?_concat]
      rfl
    · rw [if_neg hne, List.append_nil]
      exact h.newest e' cell' hold

theorem rowsOnDisk_createFile (files : List (ColdFile F)) (dir name : List Char) :
    rowsOnDisk (createFile files dir name) = rowsOnDisk files := by
  rw [rowsOnDisk, createFile, List.flatMap_append]
  exact List.append_nil _

/-- A written file adds its rows. -/
theorem Tally.write {cfg : Config} {m : Mem τ F} (h : Tally m) {v : Victim F}
    {name : List Char} (hcreated : Created cfg m.files v name) :
    Tally (m.write cfg v name) := by
  refine { h with bytes := ?_ }
  obtain ⟨⟨old, hfiles, hfree⟩, -⟩ := hcreated
  have hbytes := h.bytes
  rw [hfiles, rowsOnDisk_createFile] at hbytes
  have hrows : rowsOnDisk (m.write cfg v name).files = rowsOnDisk old ++ v.snapshot := by
    show rowsOnDisk (writeTable m.files _ name v.snapshot) = _
    rw [hfiles, writeTable_createFile old _ name _ hfree, rowsOnDisk,
      List.flatMap_append, List.flatMap_singleton, fileRows, readFile_candleTable]
    rfl
  show m.counters.parquetSpillBytes + v.snapshot.length * candleBytes = _
  rw [hrows, List.length_append, hbytes, Nat.add_mul]

theorem length_keys_erase {κ β : Type} [DecidableEq κ] {map : AList fun _ : κ => β}
    {key : κ} {e : β} (hkey : map.lookup key = some e) :
    (map.erase key).keys.length + 1 = map.keys.length := by
  have hmem : key ∈ map.keys :=
    AList.mem_keys.1 (AList.lookup_isSome.1 (by rw [hkey]; rfl))
  have hpos := List.length_pos_of_mem hmem
  rw [AList.keys_erase, List.length_erase_of_mem hmem]
  omega

theorem length_keys_insert {κ β : Type} [DecidableEq κ] {map : AList fun _ : κ => β}
    {key : κ} (hmissing : map.lookup key = none) (e : β) :
    (map.insert key e).keys.length = map.keys.length + 1 := by
  have hmem : key ∉ map.keys := fun hmem => by
    have hsome := AList.lookup_isSome.2 (AList.mem_keys.2 hmem)
    rw [hmissing] at hsome
    cases hsome
  rw [AList.keys_insert, List.erase_of_not_mem hmem, List.length_cons]

theorem Tally.remove {m : Mem τ F} (h : Tally m) {v : Victim F}
    (hmapped : m.map.lookup v.key = some v.entry) (t : τ) : Tally (m.remove t v) := by
  have hquiet : ∀ ev ∈ [Event.evicted t v.entry v.key v.snapshot], ev.isPush = false :=
    List.forall_mem_singleton.2 rfl
  refine ⟨?_, ?_, ?_, h.bytes, ?_, ?_⟩
  · show _ = (m.hist ++ [_]).countP _
    rw [List.countP_append]
    exact h.invalid
  · show _ = (m.hist ++ [_]).countP _
    rw [List.countP_append]
    exact h.failures
  · show (m.map.erase v.key).keys.length + (m.counters.evictions + 1) = m.heap.length
    have hkeys := length_keys_erase hmapped
    have hentries := h.entries
    omega
  · show m.counters.outOfOrder = lateTotal m.heap.length (m.hist ++ [_])
    rw [lateTotal_log rfl]
    exact h.late
  · intro e cell hcell
    show _ = (pushesTo e (m.hist ++ [_])).getLast?.map _
    rw [pushesTo_unpushed hquiet]
    exact h.newest e cell hcell

theorem Tally.insert {m : Mem τ F} (h : Tally m) (hring : RingInv m.heap m.map m.hist)
    {symbol : Symbol} (hmissing : m.map.lookup symbol = none) {fresh : Entry F}
    {candle : Candle F} (hlast : fresh.buf.lastTs = some candle.ts) (t : τ) :
    Tally (m.insert t symbol candle fresh) := by
  have hnone := hring.pushesTo_length
  have hlen : (m.insert t symbol candle fresh).heap.length = m.heap.length + 1 :=
    List.length_append
  refine ⟨?_, ?_, ?_, h.bytes, ?_, ?_⟩
  · show _ = (m.hist ++ [_]).countP _
    rw [List.countP_append]
    exact h.invalid
  · show _ = (m.hist ++ [_]).countP _
    rw [List.countP_append]
    exact h.failures
  · rw [hlen]
    show (m.map.insert symbol m.heap.length).keys.length + m.counters.evictions = _
    have hkeys := length_keys_insert hmissing m.heap.length
    have hentries := h.entries
    omega
  · rw [hlen]
    show m.counters.outOfOrder =
      lateTotal _ (m.hist ++ [.push t m.heap.length symbol candle none])
    have hfirst : lateTotal (m.heap.length + 1) m.hist =
        lateTotal m.heap.length m.hist := by
      unfold lateTotal
      rw [Finset.sum_range_succ, hnone]
      rfl
    rw [lateTotal_push (Nat.lt_succ_self _), hnone, hfirst, h.late]
    rfl
  · intro e cell hcell
    show _ = (pushesTo e
      (m.hist ++ [.push t m.heap.length symbol candle none])).getLast?.map _
    rw [pushesTo_push]
    rcases getElem?_snoc_some hcell with hold | ⟨rfl, rfl⟩
    · have hne : m.heap.length ≠ e := (List.getElem?_eq_some_iff.1 hold).1.ne'
      rw [if_neg hne, List.append_nil]
      exact h.newest e cell hold
    · rw [if_pos rfl, List.getLast?_concat]
      exact hlast

/-! ## The calls -/

/-- The entry a call carries under the outer lock. -/
def Pc.fresh? : Pc F → Option (Entry F)
  | .evict fresh _ _ => some fresh
  | .spill fresh _ => some fresh
  | .writing fresh _ _ => some fresh
  | .install fresh _ => some fresh
  | _ => none

/-- The call is about to insert without evicting. -/
def Pc.entersFree : Pc F → Bool
  | .install _ none => true
  | _ => false

/-- What an append carries: a ring that knows its candle, and room for the entry. -/
structure Carries (cfg : Config) (candle : Candle F) (m : Mem τ F) (p : Pc F) :
    Prop where
  ring : ∀ fresh, p.fresh? = some fresh → fresh.buf.lastTs = some candle.ts
  room : p.entersFree = true → m.map.keys.length < max 1 cfg.maxSymbols

section Calls

variable [F64 F] {cfg : Config} {t : τ} {ch : Choice} {symbol : Symbol}
  {candle : Candle F} {m m' : Mem τ F} {p p' : Pc F}

theorem lastTs_newRing {ring : RingBuffer F} (h : newRing cfg candle = some ring) :
    ring.lastTs = some candle.ts := by
  unfold newRing at h
  split at h
  · cases h
    rfl
  · cases h

omit [F64 F] in
/-- The outer lock is taken without a victim only while there is room. -/
theorem beginInsert_room {tick : Nat} {ring : RingBuffer F}
    (h : beginInsert cfg t ch symbol m tick ring = some (m', p'))
    (hfree : p'.entersFree = true) : m'.map.keys.length < max 1 cfg.maxSymbols := by
  unfold beginInsert at h
  split at h
  · cases h
    cases hfree
  · obtain ⟨p, hchoose, heq⟩ := Option.map_eq_some_iff.1 h
    cases heq
    rcases Data.choose_cases hchoose with ⟨e, -, rfl⟩ | ⟨hroom, rfl⟩
    · cases hfree
    · show m.map.keys.length < _
      by_cases hnil : m.map.keys = []
      · rw [hnil]
        exact lt_max_of_lt_left Nat.one_pos
      · have hlt : ¬ cfg.maxSymbols ≤ m.map.keys.length := fun hle => hroom ⟨hle, hnil⟩
        exact lt_max_of_lt_right (by omega)

theorem Carries.own (h : Carries cfg candle m p)
    (hstep : appendStep cfg t ch symbol candle m p = some (m', p')) :
    Carries cfg candle m' p' := by
  have hroom : p'.entersFree = true → m'.map.keys.length < max 1 cfg.maxSymbols := by
    intro hfree
    cases p with
    | insert tick =>
        rw [appendStep] at hstep
        split at hstep
        · cases hstep
          cases hfree
        · split at hstep
          · cases hstep
          · exact beginInsert_room hstep hfree
    | _ =>
        cases appendStep_move hstep <;> cases hfree
  refine ⟨fun fresh hfresh => ?_, hroom⟩
  cases appendStep_move hstep with
  | acquireFull tick ring e hring =>
      cases hfresh
      exact lastTs_newRing hring
  | acquireFree tick ring hring =>
      cases hfresh
      exact lastTs_newRing hring
  | mark | skipSpill | create | write => exact h.ring fresh hfresh
  | _ => cases hfresh

theorem Tally.own [DecidableEq τ] (h : Tally m) (hm : MemInv cfg m)
    (hok : AppendOk cfg t symbol candle m p) (hc : Carries cfg candle m p)
    (hstep : appendStep cfg t ch symbol candle m p = some (m', p')) : Tally m' := by
  cases appendStep_move hstep with
  | begin => exact { h with }
  | reject =>
      have hq : Quiet m (m.reject t symbol)
          [.returned t (.error (.invalidCandle symbol))] :=
        ⟨rfl, List.forall_mem_singleton.2 rfl,
          fun _ cell hcell => ⟨cell, hcell, rfl⟩, rfl, rfl,
          rfl, rfl, rfl, rfl, rfl, rfl⟩
      exact h.quiet hq
  | hit | miss | retry | raceHit => exact h.quiet (.of_log rfl rfl)
  | touch tick e =>
      have hq : Quiet m (m.touch tick e) [] := .of_modify rfl (fun _ => rfl)
        (List.append_nil _).symm (List.forall_mem_nil _) rfl rfl rfl rfl rfl rfl rfl
      exact h.quiet hq
  | push tick e cell hcell => exact h.push hcell t symbol candle
  | panic | skipSpill | failBefore | failAfter => exact h
  | acquireFull | acquireFree => exact { h.quiet (.of_log (m := m) rfl rfl) with }
  | mark fresh key e cell hcell =>
      exact h.quiet (.of_modify rfl (fun _ => rfl) rfl
        (List.forall_mem_singleton.2 rfl) rfl rfl
        rfl rfl rfl rfl rfl)
  | create fresh v c cs name =>
      refine { h with bytes := ?_ }
      rw [rowsOnDisk_createFile]
      exact h.bytes
  | write fresh v name => exact h.write hok.2.2.2
  | install fresh => exact h.insert hm.ring hok.1.missing (hc.ring fresh rfl) t
  | replace fresh v =>
      obtain ⟨hh, hv, hpending⟩ := hok
      have hne : symbol ≠ v.key := by
        rintro rfl
        have hmapped := hv.mapped
        rw [hh.missing] at hmapped
        cases hmapped
      have hmissing : (m.remove t v).map.lookup symbol = none :=
        (AList.lookup_erase_ne hne).trans hh.missing
      exact (h.remove hv.mapped t).insert (hm.remove hv hpending t).ring hmissing
        (hc.ring fresh rfl) t
  | abort v err =>
      refine h.quiet (.of_modify rfl (fun _ => rfl) rfl ?_ rfl rfl rfl rfl rfl rfl rfl)
      exact List.forall_mem_cons.2 ⟨rfl, List.forall_mem_singleton.2 rfl⟩
  | publish =>
      have hq : Quiet m (m.publish t) [.returned t (.ok ())] :=
        ⟨rfl, List.forall_mem_singleton.2 rfl,
          fun _ cell hcell => ⟨cell, hcell, rfl⟩, rfl, rfl,
          rfl, rfl, rfl, rfl, rfl, rfl⟩
      exact h.quiet hq

/-- A step leaves as many symbols resident as there were, unless it
inserts into free space. -/
theorem symbols_le [DecidableEq τ] (hok : AppendOk cfg t symbol candle m p)
    (hc : Carries cfg candle m p) (hle : m.map.keys.length ≤ max 1 cfg.maxSymbols)
    (hstep : appendStep cfg t ch symbol candle m p = some (m', p')) :
    m'.map.keys.length ≤ max 1 cfg.maxSymbols := by
  cases appendStep_move hstep with
  | install fresh =>
      have hroom := hc.room rfl
      show (m.map.insert symbol m.heap.length).keys.length ≤ _
      rw [length_keys_insert hok.1.missing]
      omega
  | replace fresh v =>
      obtain ⟨hh, hv, -⟩ := hok
      have hne : symbol ≠ v.key := by
        rintro rfl
        have hmapped := hv.mapped
        rw [hh.missing] at hmapped
        cases hmapped
      have hmissing := (AList.lookup_erase_ne hne).trans hh.missing
      show ((m.map.erase v.key).insert symbol m.heap.length).keys.length ≤ _
      rw [length_keys_insert hmissing, length_keys_erase hv.mapped]
      exact hle
  | _ => exact hle

end Calls

/-! ## Runs -/

section Runs

variable [DecidableEq τ] [F64 F] {cfg : Config} {order : τ → OsOrder F}
  {req : τ → Request F} {as : List (Turn τ Choice)} {w w' : World (Mem τ F) (Pc F) τ}

/-- The counters are right, and insertions know that there is room. -/
structure AccountsInv (cfg : Config) (req : τ → Request F)
    (w : World (Mem τ F) (Pc F) τ) : Prop where
  world : WorldInv cfg req w
  tally : Tally w.mem
  symbols : w.mem.map.keys.length ≤ max 1 cfg.maxSymbols
  carries : ∀ t symbol candle, req t = .append symbol candle →
    Carries cfg candle w.mem (w.pc t)

omit [F64 F] in
/-- The room an insertion has found is not taken by others, who
have to wait for the lock. -/
theorem Carries.others {t u : τ} {m m' : Mem τ F} {p : Pc F} {evs : List (Event τ F)}
    {candle : Candle F} (h : Carries cfg candle m p) (hu : u ≠ t)
    (heff : Effect t evs m m') (hok : CallOk cfg u m req p) :
    Carries cfg candle m' p := by
  refine ⟨h.ring, fun hfree => ?_⟩
  have hholds : p.holds = true := by
    cases p with
    | install => rfl
    | _ => cases hfree
  rw [(heff.guarded u hu (hok.lock_iff.2 hholds)).1]
  exact h.room hfree

omit [F64 F] in
theorem AccountsInv.start : AccountsInv cfg req (start : World (Mem τ F) (Pc F) τ) where
  world := .start
  tally := .new
  symbols := Nat.zero_le _
  carries _ _ _ _ := ⟨fun _ hfresh => (by cases hfresh), fun hfree => (by cases hfree)⟩

theorem AccountsInv.step (h : AccountsInv cfg req w) {a : Turn τ Choice}
    (hstep : turn (next cfg order req) w a = some w') : AccountsInv cfg req w' := by
  have hworld := h.world.step hstep
  obtain ⟨m, p, hnext, rfl⟩ := turn_eq_some.1 hstep
  have hok := h.world.pcs a.thread
  obtain ⟨evs, heff⟩ := (sound_next h.world.mem hok hnext).effect
  have hothers : ∀ u symbol candle, u ≠ a.thread → req u = .append symbol candle →
      Carries cfg candle m (Function.update w.pc a.thread p u) := by
    intro u symbol candle hu hreq
    rw [Function.update_of_ne hu]
    exact (h.carries u symbol candle hreq).others hu heff (h.world.pcs u)
  rw [next] at hnext
  rw [CallOk] at hok
  cases hreq : req a.thread with
  | append symbol candle =>
      rw [hreq] at hnext hok
      have hc := h.carries a.thread symbol candle hreq
      refine ⟨hworld, h.tally.own h.world.mem hok hc hnext,
        symbols_le hok hc h.symbols hnext,
        fun u symbol' candle' hreq' => ?_⟩
      by_cases hu : u = a.thread
      · subst hu
        rw [hreq] at hreq'
        cases hreq'
        show Carries cfg candle m (Function.update w.pc a.thread p a.thread)
        rw [Function.update_self]
        exact hc.own hnext
      · exact hothers u symbol' candle' hu hreq'
  | range symbol fromTs toTs =>
      rw [hreq] at hnext
      have hmem := rangeStep_mem hnext
      subst hmem
      refine ⟨hworld, h.tally, h.symbols, fun u symbol' candle' hreq' => ?_⟩
      have hu : u ≠ a.thread := by
        rintro rfl
        rw [hreq] at hreq'
        cases hreq'
      exact hothers u symbol' candle' hu hreq'

end Runs

end Candlestore.Concurrent
