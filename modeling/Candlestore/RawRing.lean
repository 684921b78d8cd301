import Candlestore.RingOrder

/-!
# The ring with its panics

`RingBuffer` carries the bounds of its fields, so its operations are total.
This file has the ring as plain fields, where an index outside the buffer, a
slice outside it, a subtraction below zero and a failed assertion are panics:
every operation is an `Option`, and `none` is the panic.

A ring that was made by `new` and pushed to is a `RingBuffer` forgotten
(`RingBuffer.raw`), or was made with capacity zero and never pushed to.  On the
former every operation returns what the total one returns, so what is known of
`RingBuffer` holds of the plain ring, and no panic is reached.
-/

namespace Candlestore

open Lib

variable {F : Type}

/-- `a - b` on `usize`, with overflow checks. -/
def checkedSub (a b : Nat) : Option Nat := if b ≤ a then some (a - b) else none

/-- `&l[lo..hi]`. -/
def slice {α : Type} (l : List α) (lo hi : Nat) : Option (List α) :=
  if lo ≤ hi ∧ hi ≤ l.length then some ((l.take hi).drop lo) else none

theorem checkedSub_eq_some {a b : Nat} (h : b ≤ a) : checkedSub a b = some (a - b) :=
  if_pos h

theorem slice_eq_some {α : Type} {l : List α} {lo hi : Nat} (hle : lo ≤ hi)
    (hhi : hi ≤ l.length) : slice l lo hi = some ((l.take hi).drop lo) :=
  if_pos ⟨hle, hhi⟩

/-- The fields of the ring. -/
structure RawRing (F : Type) where
  buf : List (Candle F)
  head : Nat
  len : Nat
  lastTs : Option Int
  deriving DecidableEq

namespace RawRing

/-- `RingBuffer::new`, for any capacity. -/
def new [F64 F] (capacity : Nat) : RawRing F :=
  ⟨List.replicate capacity Candle.zero, 0, 0, none⟩

/-- `push`, with the slot access that may be out of bounds. -/
def push (r : RawRing F) (c : Candle F) : Option (PushOutcome × RawRing F) :=
  let outcome := match r.lastTs with
    | some prev => if c.ts < prev then PushOutcome.outOfOrder prev c.ts else .ok
    | none => .ok
  if r.head < r.buf.length then
    some (outcome,
      { buf := r.buf.set r.head c
        head := (r.head + 1) % r.buf.length
        len := if r.len < r.buf.length then r.len + 1 else r.len
        lastTs := some c.ts })
  else none

/-- `physical_idx`: the slot of the `i`-th oldest candle. -/
def physicalIdx (r : RawRing F) (i : Nat) : Nat :=
  let cap := r.buf.length
  let start := if r.len < cap then 0 else r.head
  let raw := start + i
  if cap ≤ raw then raw - cap else raw

/-- The timestamp at a logical index, if its slot exists. -/
def tsAt (r : RawRing F) (i : Nat) : Option Int := r.buf[r.physicalIdx i]?.map Candle.ts

/-- `lower_bound_idx`: the first candle not before the threshold. -/
def lowerBoundIdx (r : RawRing F) (threshold : Int) : Option Nat :=
  tryBisect (fun mid => (r.tsAt mid).map fun ts => decide (ts < threshold)) 0 r.len

/-- `upper_bound_idx`: the first candle after the threshold. -/
def upperBoundIdx (r : RawRing F) (threshold : Int) : Option Nat :=
  tryBisect (fun mid => (r.tsAt mid).map fun ts => decide (ts ≤ threshold)) 0 r.len

/-- `copy_logical_range`: one slice, or two where the range wraps. -/
def copyLogicalRange (r : RawRing F) (lo hi : Nat) : Option (List (Candle F)) :=
  -- `debug_assert!(lo <= hi && hi <= self.len)`
  if lo ≤ hi ∧ hi ≤ r.len then
    if lo = hi then some []
    else do
      let cap := r.buf.length
      let startPhys := r.physicalIdx lo
      let count ← checkedSub hi lo
      if startPhys + count ≤ cap then slice r.buf startPhys (startPhys + count)
      else
        let first ← checkedSub cap startPhys
        let front ← slice r.buf startPhys cap
        let rest ← checkedSub count first
        let back ← slice r.buf 0 rest
        return front ++ back
  else none

/-- `to_vec`. -/
def toVec (r : RawRing F) : Option (List (Candle F)) := r.copyLogicalRange 0 r.len

/-- `range`, by two binary searches. -/
def range (r : RawRing F) (fromTs toTs : Int) : Option (List (Candle F)) :=
  if r.len = 0 ∨ fromTs > toTs then some []
  else do
    let lo ← r.lowerBoundIdx fromTs
    let hi ← r.upperBoundIdx toTs
    r.copyLogicalRange lo hi

/-- `last_n`. -/
def lastN (r : RawRing F) (n : Nat) : Option (List (Candle F)) :=
  let take := min n r.len
  if take = 0 then some []
  else do
    let lo ← checkedSub r.len take
    r.copyLogicalRange lo r.len

/-- `oldest_ts`; the outer option is the access. -/
def oldestTs (r : RawRing F) : Option (Option Int) :=
  if r.len = 0 then some none else (r.tsAt 0).map some

/-- Push the candles one by one, keeping each with what its push reported. -/
def pushAll (r : RawRing F) :
    List (Candle F) → Option (List (Candle F × PushOutcome) × RawRing F)
  | [] => some ([], r)
  | c :: cs => do
      let (outcome, r') ← r.push c
      let (log, r'') ← r'.pushAll cs
      return ((c, outcome) :: log, r'')

end RawRing

/-! ## The plain ring refines the ring with bounds -/

namespace RingBuffer

/-- The fields of the ring without what is known of them. -/
def raw (r : RingBuffer F) : RawRing F := ⟨r.buf, r.head, r.len, r.lastTs⟩

theorem raw_push (r : RingBuffer F) (c : Candle F) :
    r.raw.push c = some ((r.push c).1, (r.push c).2.raw) :=
  if_pos r.head_lt

theorem raw_pushAll (r : RingBuffer F) (cs : List (Candle F)) :
    r.raw.pushAll cs = some ((r.pushAll cs).1, (r.pushAll cs).2.raw) := by
  induction cs generalizing r with
  | nil => rfl
  | cons c cs ih =>
      rw [RawRing.pushAll, raw_push]
      simp only [Option.bind_eq_bind, Option.bind_some, ih]
      rfl

/-- The one or two slices of a copy lie within the buffer. -/
theorem raw_copyLogicalRange (r : RingBuffer F) {lo hi : Nat} (hle : lo ≤ hi)
    (hhi : hi ≤ r.len) :
    r.raw.copyLogicalRange lo hi = some (r.copyLogicalRange lo hi) := by
  have hlen := r.len_le
  unfold RawRing.copyLogicalRange copyLogicalRange
  rw [if_pos ⟨hle, hhi⟩]
  by_cases heq : lo = hi
  · rw [if_pos heq, if_pos heq]
  · have hphys : r.physicalIdx lo < r.buf.length := r.physicalIdx_lt lo (by omega)
    have hraw : r.raw.physicalIdx lo = r.physicalIdx lo := rfl
    have hbuf : r.raw.buf = r.buf := rfl
    simp only [if_neg heq, hraw, hbuf, checkedSub_eq_some hle, Option.bind_eq_bind,
      Option.bind_some]
    by_cases hfit : r.physicalIdx lo + (hi - lo) ≤ r.buf.length
    · rw [if_pos hfit, if_pos hfit, slice_eq_some (by omega) hfit, List.drop_take,
        Nat.add_sub_cancel_left]
    · rw [if_neg hfit, if_neg hfit, checkedSub_eq_some (by omega),
        slice_eq_some (by omega) (Nat.le_refl _), Option.bind_some, Option.bind_some,
        checkedSub_eq_some (by omega), Option.bind_some,
        slice_eq_some (Nat.zero_le _) (by omega), Option.bind_some, List.take_length,
        List.drop_zero]
      rfl

theorem raw_toVec (r : RingBuffer F) : r.raw.toVec = some r.toVec :=
  r.raw_copyLogicalRange (Nat.zero_le _) (Nat.le_refl _)

theorem raw_lastN (r : RingBuffer F) (n : Nat) : r.raw.lastN n = some (r.lastN n) := by
  have hlen : r.raw.len = r.len := rfl
  unfold RawRing.lastN lastN
  simp only [hlen, checkedSub_eq_some (Nat.min_le_right n r.len), Option.bind_eq_bind,
    Option.bind_some, r.raw_copyLogicalRange (Nat.sub_le _ _) (Nat.le_refl _)]
  split <;> rfl

section Query

variable [F64 F]

theorem raw_new {capacity : Nat} (hcap : 0 < capacity) :
    (new capacity hcap : RingBuffer F).raw = RawRing.new capacity := rfl

theorem raw_tsAt (r : RingBuffer F) {i : Nat} (hi : i < r.len) :
    r.raw.tsAt i = some (r.tsAt i) := by
  have hphys := r.physicalIdx_lt i hi
  show r.buf[r.physicalIdx i]?.map Candle.ts = _
  rw [tsAt, List.getD_eq_getElem?_getD, List.getElem?_eq_getElem hphys]
  rfl

theorem raw_lowerBoundIdx (r : RingBuffer F) (threshold : Int) :
    r.raw.lowerBoundIdx threshold = some (r.lowerBoundIdx threshold) := by
  apply tryBisect_eq
  intro i hi
  rw [r.raw_tsAt hi]
  rfl

theorem raw_upperBoundIdx (r : RingBuffer F) (threshold : Int) :
    r.raw.upperBoundIdx threshold = some (r.upperBoundIdx threshold) := by
  apply tryBisect_eq
  intro i hi
  rw [r.raw_tsAt hi]
  rfl

theorem raw_range (r : RingBuffer F) (fromTs toTs : Int) :
    r.raw.range fromTs toTs = some (r.range fromTs toTs) := by
  have hlen : r.raw.len = r.len := rfl
  unfold RawRing.range range
  rw [hlen]
  split
  · rfl
  · next hne =>
      have hcross := r.lowerBoundIdx_le_upperBoundIdx fromTs toTs (by omega)
      simp only [raw_lowerBoundIdx, raw_upperBoundIdx, Option.bind_eq_bind,
        Option.bind_some, r.raw_copyLogicalRange hcross (bisect_le _ _)]

theorem raw_oldestTs (r : RingBuffer F) : r.raw.oldestTs = some (r.oldestTs) := by
  have hlen : r.raw.len = r.len := rfl
  unfold RawRing.oldestTs oldestTs
  rw [hlen]
  split
  · rfl
  · next hne =>
      rw [r.raw_tsAt (by omega)]
      rfl

/-- The oldest timestamp is that of the first candle. -/
theorem oldestTs_eq (r : RingBuffer F) : r.oldestTs = r.toVec.head?.map Candle.ts := by
  have hlen := r.length_toVec
  unfold oldestTs
  split
  · next hzero =>
      rw [List.length_eq_zero_iff.1 (hlen.trans hzero)]
      rfl
  · next hne =>
      have hpos : 0 < r.toVec.length := by omega
      rw [r.tsAt_eq 0 hpos, List.head?_eq_getElem?, List.getElem?_eq_getElem hpos]
      rfl

end Query

/-! ## What a run of pushes leaves -/

@[simp] theorem capacity_pushAll (r : RingBuffer F) (cs : List (Candle F)) :
    (r.pushAll cs).2.capacity = r.capacity := by
  induction cs generalizing r with
  | nil => rfl
  | cons c cs ih => exact (ih (r.push c).2).trans (r.capacity_push c)

/-- What a push reports after a candle with timestamp `prev`, or on a fresh ring. -/
def report (prev : Option Int) (c : Candle F) : PushOutcome :=
  match prev with
  | some prev => if c.ts < prev then .outOfOrder prev c.ts else .ok
  | none => .ok

/-- Each push is compared with the one just before it. -/
theorem getElem?_pushAll (r : RingBuffer F) (past pre post : List (Candle F))
    (c : Candle F) (hlast : r.lastTs = past.getLast?.map Candle.ts) :
    (r.pushAll (pre ++ c :: post)).1[pre.length]? =
      some (c, report ((past ++ pre).getLast?.map Candle.ts) c) := by
  induction pre generalizing r past with
  | nil =>
      rw [List.append_nil, ← hlast]
      rfl
  | cons d pre ih =>
      have hnext : (r.push d).2.lastTs = (past ++ [d]).getLast?.map Candle.ts := by
        rw [List.getLast?_concat]
        rfl
      have hrest := ih (r.push d).2 (past ++ [d]) hnext
      rw [List.append_assoc] at hrest
      exact hrest

end RingBuffer

namespace RawRing

/-- The ring after the pushes `cs`, with the reports they returned in `log`, is a
window of the last `capacity` of them.  No access to its buffer panics: the
queries return, and the slots they and the next push use are below the
capacity. -/
structure Window (capacity : Nat) (cs : List (Candle F))
    (log : List (Candle F × PushOutcome)) (r : RawRing F) : Prop where
  size : r.buf.length = capacity
  toVec : r.toVec = some (cs.rtake capacity)
  len : r.len = min cs.length capacity
  lastN : ∀ k, r.lastN k = some ((cs.rtake capacity).rtake (min k r.len))
  oldestTs : r.oldestTs = some ((cs.rtake capacity).head?.map Candle.ts)
  head_lt : r.head < capacity
  physicalIdx_lt : ∀ i < r.len, r.physicalIdx i < capacity
  reports : ∀ pre c post, cs = pre ++ c :: post →
    log[pre.length]? = some (c, RingBuffer.report (pre.getLast?.map Candle.ts) c)

variable [F64 F]

theorem window_raw {capacity : Nat} (hcap : 0 < capacity) (cs : List (Candle F)) :
    Window capacity cs ((RingBuffer.new capacity hcap).pushAll cs).1
      ((RingBuffer.new capacity hcap).pushAll cs).2.raw := by
  have hvec := (RingBuffer.new capacity hcap).toVec_pushAll [] cs
    (by rw [RingBuffer.toVec_new, List.rtake_nil])
  rw [RingBuffer.capacity_new, List.nil_append] at hvec
  have hsize : ((RingBuffer.new capacity hcap).pushAll cs).2.buf.length = capacity :=
    (RingBuffer.capacity_pushAll _ cs).trans (RingBuffer.capacity_new capacity hcap)
  have hlen : ((RingBuffer.new capacity hcap).pushAll cs).2.raw.len =
      (cs.rtake capacity).length := by
    rw [← hvec, RingBuffer.length_toVec]
    rfl
  refine ⟨hsize, ?_, ?_, ?_, ?_, ?_, ?_, ?_⟩
  · rw [RingBuffer.raw_toVec, hvec]
  · rw [hlen, length_rtake, Nat.min_comm]
  · intro k
    rw [RingBuffer.raw_lastN, RingBuffer.lastN_eq_rtake, hvec, hlen, rtake_min_length]
  · rw [RingBuffer.raw_oldestTs, RingBuffer.oldestTs_eq, hvec]
  · exact ((RingBuffer.new capacity hcap).pushAll cs).2.head_lt.trans_eq hsize
  · intro i hi
    exact (((RingBuffer.new capacity hcap).pushAll cs).2.physicalIdx_lt i hi).trans_eq
      hsize
  · rintro pre c post rfl
    exact RingBuffer.getElem?_pushAll _ [] pre post c rfl

/-- The ring buffer is a window.  For every capacity of at least one and every
sequence of pushes no push panics, and the ring presents the last `capacity`
candles pushed. -/
theorem pushAll_window (capacity : Nat) (hcap : 0 < capacity) (cs : List (Candle F)) :
    ∃ log r, (new capacity).pushAll cs = some (log, r) ∧ Window capacity cs log r := by
  refine ⟨_, _, ?_, window_raw hcap cs⟩
  rw [← RingBuffer.raw_new hcap, RingBuffer.raw_pushAll]

/-- Four pushes to a ring of two: it has wrapped, and one push was late. -/
theorem pushAll_window_wrapped :
    let cs : List (Candle ℚ) :=
  [flatCandle 1 1, flatCandle 3 2, flatCandle 2 3, flatCandle 5 4]
    ∃ log r, (new 2).pushAll cs = some (log, r) ∧ Window 2 cs log r ∧
      log.map Prod.snd = [.ok, .ok, .outOfOrder 3 2, .ok] ∧ r.head = 0 := by
  intro cs
  obtain ⟨log, r, hrun, hwindow⟩ := pushAll_window 2 (by decide) cs
  have hfinal : (new 2).pushAll cs = some
      ([(flatCandle 1 1, .ok), (flatCandle 3 2, .ok), (flatCandle 2 3, .outOfOrder 3 2),
        (flatCandle 5 4, .ok)], ⟨[flatCandle 2 3, flatCandle 5 4], 0, 2, some 5⟩) := by
    decide +kernel
  obtain ⟨rfl, rfl⟩ := Prod.mk.inj (Option.some.inj (hrun.symm.trans hfinal))
  exact ⟨_, _, hrun, hwindow, rfl, rfl⟩

/-- A ring of capacity zero is only reached without a push. -/
theorem pushAll_eq_some {capacity : Nat} {cs : List (Candle F)}
    {log : List (Candle F × PushOutcome)} {r : RawRing F}
    (hrun : (new capacity).pushAll cs = some (log, r)) :
    r = new 0 ∨ ∃ ring : RingBuffer F, r = ring.raw := by
  rcases Nat.eq_zero_or_pos capacity with rfl | hcap
  · cases cs with
    | nil =>
        cases hrun
        exact Or.inl rfl
    | cons c cs => cases hrun
  · rw [← RingBuffer.raw_new hcap, RingBuffer.raw_pushAll, Option.some.injEq,
      Prod.mk.injEq] at hrun
    exact Or.inr ⟨_, hrun.2.symm⟩

/-- The two bound searches never cross.  On every ring that pushes lead to,
whatever it contains, a query with `fromTs ≤ toTs` reaches no panic and returns
the slice of the contents between the two bounds. -/
theorem bounds_never_cross {capacity : Nat} {cs : List (Candle F)}
    {log : List (Candle F × PushOutcome)} {r : RawRing F}
    (hrun : (new capacity).pushAll cs = some (log, r)) {fromTs toTs : Int}
    (hle : fromTs ≤ toTs) :
    ∃ lo hi contents, r.lowerBoundIdx fromTs = some lo ∧ r.upperBoundIdx toTs = some hi ∧
      lo ≤ hi ∧ hi ≤ r.len ∧ r.toVec = some contents ∧
      r.range fromTs toTs = some ((contents.take hi).drop lo) := by
  rcases pushAll_eq_some hrun with rfl | ⟨ring, rfl⟩
  · exact ⟨0, 0, [], rfl, rfl, Nat.le_refl 0, Nat.le_refl 0, rfl, rfl⟩
  · refine ⟨_, _, _, ring.raw_lowerBoundIdx fromTs, ring.raw_upperBoundIdx toTs,
      ring.lowerBoundIdx_le_upperBoundIdx fromTs toTs hle, bisect_le _ _,
        ring.raw_toVec, ?_⟩
    rw [ring.raw_range, ring.range_eq_slice fromTs toTs hle]

/-- A wrapped ring whose timestamps go down. -/
theorem bounds_never_cross_descending :
    let cs : List (Candle ℚ) :=
  [flatCandle 9 1, flatCandle 7 2, flatCandle 5 3, flatCandle 1 4]
    ∃ log r lo hi contents, (new 3).pushAll cs = some (log, r) ∧
      r.lowerBoundIdx 2 = some lo ∧ r.upperBoundIdx 6 = some hi ∧ lo ≤ hi ∧ hi ≤ r.len ∧
      r.toVec = some contents ∧ r.range 2 6 = some ((contents.take hi).drop lo) := by
  intro cs
  have hrun : (new 3).pushAll cs = some
      ([(flatCandle 9 1, .ok), (flatCandle 7 2, .outOfOrder 9 7),
        (flatCandle 5 3, .outOfOrder 7 5), (flatCandle 1 4, .outOfOrder 5 1)],
        ⟨[flatCandle 1 4, flatCandle 7 2, flatCandle 5 3], 1, 3, some 1⟩) := by
    decide +kernel
  obtain ⟨lo, hi, contents, h⟩ := bounds_never_cross hrun (by decide : (2 : Int) ≤ 6)
  exact ⟨_, _, lo, hi, contents, hrun, h⟩

end RawRing

end Candlestore
