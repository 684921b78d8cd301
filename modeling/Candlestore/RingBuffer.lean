import Mathlib.Data.List.DropRight
import Mathlib.Tactic.Common
import Candlestore.Candle
import Candlestore.Lib.Bisect

/-!
# The fixed-capacity candle ring

`RingBuffer` keeps its candles in two layouts: while it is not full the
logical order is the physical order, and once it is full the oldest candle
sits at `head` and the logical order wraps.  `logical` names that order, and
every operation is described by what it does to `logical`.

A ring of capacity zero cannot be pushed to (the slice access panics), so the
structure carries `head < capacity`; the store models the panic where it
creates and pushes its rings.
-/

namespace Candlestore

open Lib

/-- Outcome of `RingBuffer.push`: the candle is stored either way. -/
inductive PushOutcome where
  | ok
  | outOfOrder (prevTs thisTs : Int)
  deriving DecidableEq, Repr

/-- Fixed-capacity ring buffer for candles. -/
structure RingBuffer (F : Type) where
  buf : List (Candle F)
  head : Nat
  len : Nat
  lastTs : Option Int
  head_lt : head < buf.length
  len_le : len ≤ buf.length
  layout : len < buf.length → head = len

namespace RingBuffer

variable {F : Type}

/-- The number of slots. -/
def capacity (r : RingBuffer F) : Nat := r.buf.length

section New

variable [F64 F]

/-- `RingBuffer::new(capacity)`. -/
def new (capacity : Nat) (hcap : 0 < capacity) : RingBuffer F where
  buf := List.replicate capacity Candle.zero
  head := 0
  len := 0
  lastTs := none
  head_lt := by simpa using hcap
  len_le := Nat.zero_le _
  layout := fun _ => rfl

end New

/-- Push a candle, reporting whether its `ts` went backwards. -/
def push (r : RingBuffer F) (c : Candle F) : PushOutcome × RingBuffer F :=
  let outcome := match r.lastTs with
    | some prev => if c.ts < prev then PushOutcome.outOfOrder prev c.ts else .ok
    | none => .ok
  (outcome,
    { buf := r.buf.set r.head c
      head := (r.head + 1) % r.buf.length
      len := if r.len < r.buf.length then r.len + 1 else r.len
      lastTs := some c.ts
      head_lt := by
        rw [List.length_set]
        exact Nat.mod_lt _ (Nat.lt_of_le_of_lt (Nat.zero_le _) r.head_lt)
      len_le := by
        have := r.len_le
        rw [List.length_set]
        split <;> omega
      layout := by
        have hlayout := r.layout
        rw [List.length_set]
        intro h
        split at h
        · rename_i hlt
          rw [if_pos hlt, hlayout hlt, Nat.mod_eq_of_lt h]
        · omega })

/-- Physical buffer index for logical position `i`. -/
def physicalIdx (r : RingBuffer F) (i : Nat) : Nat :=
  let cap := r.buf.length
  let start := if r.len < cap then 0 else r.head
  let raw := start + i
  if cap ≤ raw then raw - cap else raw

/-- Copy logical range `[lo, hi)` into a fresh list, in one or two chunks. -/
def copyLogicalRange (r : RingBuffer F) (lo hi : Nat) : List (Candle F) :=
  if lo = hi then []
  else
    let cap := r.buf.length
    let startPhys := r.physicalIdx lo
    let count := hi - lo
    if startPhys + count ≤ cap then (r.buf.drop startPhys).take count
    else
      let first := cap - startPhys
      r.buf.drop startPhys ++ r.buf.take (count - first)

/-- Copy the entire logical contents, oldest first. -/
def toVec (r : RingBuffer F) : List (Candle F) := r.copyLogicalRange 0 r.len

/-- The last `n` candles (newest), or all if `n > len`. -/
def lastN (r : RingBuffer F) (n : Nat) : List (Candle F) :=
  let take := min n r.len
  if take = 0 then [] else r.copyLogicalRange (r.len - take) r.len

section Query

variable [F64 F]

/-- Timestamp at logical position `i`. -/
def tsAt (r : RingBuffer F) (i : Nat) : Int :=
  (r.buf.getD (r.physicalIdx i) Candle.zero).ts

/-- Smallest logical index whose `ts` is at least `threshold`. -/
def lowerBoundIdx (r : RingBuffer F) (threshold : Int) : Nat :=
  bisect (fun mid => decide (r.tsAt mid < threshold)) 0 r.len

/-- Smallest logical index whose `ts` exceeds `threshold`. -/
def upperBoundIdx (r : RingBuffer F) (threshold : Int) : Nat :=
  bisect (fun mid => decide (r.tsAt mid ≤ threshold)) 0 r.len

/-- Range query: candles with `fromTs ≤ ts ≤ toTs`. -/
def range (r : RingBuffer F) (fromTs toTs : Int) : List (Candle F) :=
  if r.len = 0 ∨ fromTs > toTs then []
  else r.copyLogicalRange (r.lowerBoundIdx fromTs) (r.upperBoundIdx toTs)

/-- Oldest timestamp in the buffer, if any. -/
def oldestTs (r : RingBuffer F) : Option Int :=
  if r.len = 0 then none else some (r.tsAt 0)

end Query

/-! ## The logical order -/

/-- The candles of the ring, oldest first. -/
def logical (r : RingBuffer F) : List (Candle F) :=
  if r.len < r.buf.length then r.buf.take r.len
  else r.buf.drop r.head ++ r.buf.take r.head

theorem length_logical (r : RingBuffer F) : r.logical.length = r.len := by
  have hhead := r.head_lt
  have hlen := r.len_le
  unfold logical
  split
  · rw [List.length_take]
    omega
  · rw [List.length_append, List.length_drop, List.length_take]
    omega

/-- Logical positions map to slots of the buffer. -/
theorem physicalIdx_lt (r : RingBuffer F) (i : Nat) (hi : i < r.len) :
    r.physicalIdx i < r.buf.length := by
  have hhead := r.head_lt
  have hlen := r.len_le
  simp only [physicalIdx]
  split <;> split <;> omega

theorem logical_getElem? (r : RingBuffer F) (i : Nat) (hi : i < r.len) :
    r.logical[i]? = r.buf[r.physicalIdx i]? := by
  have hhead := r.head_lt
  have hlen := r.len_le
  simp only [logical, physicalIdx]
  by_cases hfull : r.len < r.buf.length
  · simp only [if_pos hfull, Nat.zero_add]
    rw [if_neg (by omega), List.getElem?_take_of_lt hi]
  · simp only [if_neg hfull]
    by_cases hwrap : r.buf.length ≤ r.head + i
    · rw [if_pos hwrap, List.getElem?_append_right (by rw [List.length_drop]; omega),
        List.length_drop, List.getElem?_take_of_lt (by omega)]
      congr 1
      omega
    · rw [if_neg hwrap, List.getElem?_append_left (by rw [List.length_drop]; omega),
        List.getElem?_drop]

/-- A two-chunk copy is a slice of the logical order. -/
theorem copyLogicalRange_eq (r : RingBuffer F) (lo hi : Nat) (hle : lo ≤ hi)
    (hhi : hi ≤ r.len) :
    r.copyLogicalRange lo hi = (r.logical.take hi).drop lo := by
  have hhead := r.head_lt
  have hlen := r.len_le
  unfold copyLogicalRange
  by_cases heq : lo = hi
  · subst heq
    simp
  · rw [if_neg heq]
    have hlo : lo < r.len := by omega
    apply List.ext_getElem?
    intro i
    rw [List.getElem?_drop, List.getElem?_take]
    have hphys : r.physicalIdx lo < r.buf.length := r.physicalIdx_lt lo hlo
    by_cases hin : lo + i < hi
    · rw [if_pos hin, r.logical_getElem? (lo + i) (by omega)]
      have hstep : r.physicalIdx (lo + i) =
          if r.buf.length ≤ r.physicalIdx lo + i then
            r.physicalIdx lo + i - r.buf.length
          else r.physicalIdx lo + i := by
        simp only [physicalIdx]
        split <;> split <;> split <;> split <;> omega
      rw [hstep]
      dsimp only
      by_cases hfit : r.physicalIdx lo + (hi - lo) ≤ r.buf.length
      · rw [if_pos hfit, List.getElem?_take_of_lt (by omega), List.getElem?_drop,
          if_neg (by omega)]
      · rw [if_neg hfit]
        by_cases hwrap : r.buf.length ≤ r.physicalIdx lo + i
        · rw [if_pos hwrap,
            List.getElem?_append_right (by rw [List.length_drop]; omega),
            List.length_drop, List.getElem?_take_of_lt (by omega)]
          congr 1
          omega
        · rw [if_neg hwrap,
            List.getElem?_append_left (by rw [List.length_drop]; omega),
            List.getElem?_drop]
    · rw [if_neg hin]
      apply List.getElem?_eq_none
      dsimp only
      split
      · rw [List.length_take, List.length_drop]
        omega
      · rw [List.length_append, List.length_drop, List.length_take]
        omega

theorem toVec_eq_logical (r : RingBuffer F) : r.toVec = r.logical := by
  rw [toVec, r.copyLogicalRange_eq 0 r.len (Nat.zero_le _) (Nat.le_refl _),
    List.drop_zero, ← r.length_logical, List.take_length]

theorem length_toVec (r : RingBuffer F) : r.toVec.length = r.len := by
  rw [toVec_eq_logical, length_logical]

/-- The last `n` candles are the end of the logical contents. -/
theorem lastN_eq_rtake (r : RingBuffer F) (n : Nat) : r.lastN n = r.toVec.rtake n := by
  have hlen := r.length_toVec
  unfold lastN
  rw [List.rtake, hlen]
  by_cases htake : min n r.len = 0
  · rw [if_pos htake, List.drop_eq_nil_of_le]
    omega
  · rw [if_neg htake, r.copyLogicalRange_eq _ _ (Nat.sub_le _ _) (Nat.le_refl _),
      ← toVec_eq_logical, ← hlen, List.take_length]
    congr 1
    omega

/-- Pushing appends the candle and drops the oldest one when the ring is full. -/
theorem logical_push (r : RingBuffer F) (c : Candle F) :
    (r.push c).2.logical =
      (r.logical ++ [c]).drop (r.len + 1 - r.capacity) := by
  have hhead := r.head_lt
  have hlen := r.len_le
  simp only [logical, push, capacity, List.length_set]
  by_cases hfull : r.len < r.buf.length
  · have hlay := r.layout hfull
    simp only [if_pos hfull, show r.len + 1 - r.buf.length = 0 by omega, List.drop_zero]
    have hset : (r.buf.set r.head c).take (r.len + 1) = r.buf.take r.len ++ [c] := by
      rw [hlay, List.take_add_one, List.take_set_of_le (Nat.le_refl _),
        List.getElem?_set_self (by omega)]
      rfl
    by_cases hlast : r.len + 1 < r.buf.length
    · rw [if_pos hlast, hset]
    · -- the push that fills the ring: the head wraps to slot zero
      have hcap : r.len + 1 = r.buf.length := by omega
      rw [if_neg hlast, hlay, hcap, Nat.mod_self, List.drop_zero, List.take_zero,
        List.append_nil]
      rw [hlay, hcap, List.take_of_length_le (by rw [List.length_set])] at hset
      exact hset
  · have heq : r.len = r.buf.length := by omega
    have hdrop : r.buf.drop r.head = r.buf[r.head] :: r.buf.drop (r.head + 1) :=
      List.drop_eq_getElem_cons hhead
    simp only [heq, Nat.lt_irrefl, if_false, Nat.add_sub_cancel_left]
    rw [hdrop, List.cons_append, List.cons_append, List.drop_succ_cons, List.drop_zero,
      List.append_assoc]
    by_cases hwrap : r.head + 1 < r.buf.length
    · rw [Nat.mod_eq_of_lt hwrap, List.drop_set_of_lt (Nat.lt_succ_self _),
        List.take_add_one, List.take_set_of_le (Nat.le_refl _),
        List.getElem?_set_self hhead]
      rfl
    · have hcap : r.head + 1 = r.buf.length := by omega
      rw [hcap, Nat.mod_self, List.drop_zero, List.take_zero, List.append_nil,
        List.drop_length, List.nil_append]
      have htake : (r.buf.set r.head c).take (r.head + 1) =
          r.buf.take r.head ++ [c] := by
        rw [List.take_add_one, List.take_set_of_le (Nat.le_refl _),
          List.getElem?_set_self hhead]
        rfl
      rwa [hcap, List.take_of_length_le (by rw [List.length_set])] at htake

/-- The candle a push overwrites: the oldest one of a full ring. -/
def overwritten (r : RingBuffer F) : Option (Candle F) :=
  if r.len < r.buf.length then none else r.buf[r.head]?

/-- What a push overwrites and what it leaves are what there was before and the
new candle. -/
theorem overwritten_append_toVec_push (r : RingBuffer F) (c : Candle F) :
    r.overwritten.toList ++ (r.push c).2.toVec = r.toVec ++ [c] := by
  have hhead := r.head_lt
  have hlen := r.len_le
  rw [toVec_eq_logical, toVec_eq_logical, logical_push, overwritten, capacity]
  by_cases hfull : r.len < r.buf.length
  · rw [if_pos hfull, show r.len + 1 - r.buf.length = 0 by omega]
    rfl
  · have hdrop : r.buf.drop r.head = r.buf[r.head] :: r.buf.drop (r.head + 1) :=
      List.drop_eq_getElem_cons hhead
    rw [if_neg hfull, List.getElem?_eq_getElem hhead,
      show r.len + 1 - r.buf.length = 1 by omega, logical, if_neg hfull, hdrop]
    rfl

@[simp] theorem capacity_push (r : RingBuffer F) (c : Candle F) :
    (r.push c).2.capacity = r.capacity := by
  simp [push, capacity]

/-- A ring that holds the last `capacity` candles of a push history still does
after one more push. -/
theorem toVec_push (r : RingBuffer F) (c : Candle F) (pushed : List (Candle F))
    (h : r.toVec = pushed.rtake r.capacity) :
    (r.push c).2.toVec = (pushed ++ [c]).rtake r.capacity := by
  have hlen : r.len = min r.capacity pushed.length := by
    rw [← length_toVec, h, List.rtake, List.length_drop]
    omega
  have hcap : 0 < r.capacity := Nat.lt_of_le_of_lt (Nat.zero_le _) r.head_lt
  rw [toVec_eq_logical] at h
  rw [toVec_eq_logical, logical_push, h, List.rtake, List.rtake, List.length_append,
    List.length_singleton]
  rw [List.drop_append_of_le_length (by rw [List.length_drop]; omega),
    List.drop_append_of_le_length (by omega), List.drop_drop]
  congr 2
  omega

section Query

variable [F64 F]

theorem toVec_new (capacity : Nat) (hcap : 0 < capacity) :
    (new capacity hcap : RingBuffer F).toVec = [] := by
  rw [← List.length_eq_zero_iff, length_toVec]
  rfl

@[simp] theorem capacity_new (n : Nat) (hcap : 0 < n) :
    (new n hcap : RingBuffer F).capacity = n := by
  simp [new, capacity]

/-- A fresh ring holds exactly the first candle pushed to it. -/
theorem toVec_new_push (n : Nat) (hcap : 0 < n) (c : Candle F) :
    ((new n hcap : RingBuffer F).push c).2.toVec = [c] := by
  have h := toVec_push (new n hcap : RingBuffer F) c [] (by simp [toVec_new, List.rtake])
  rw [h, capacity_new, List.nil_append, List.rtake, List.length_singleton,
    show 1 - n = 0 by omega, List.drop_zero]

theorem tsAt_eq (r : RingBuffer F) (i : Nat) (hi : i < r.toVec.length) :
    r.tsAt i = r.toVec[i].ts := by
  have hlen : i < r.len := by rwa [length_toVec] at hi
  have hget : r.buf[r.physicalIdx i]? = some r.toVec[i] := by
    rw [← r.logical_getElem? i hlen, ← toVec_eq_logical, List.getElem?_eq_getElem hi]
  rw [tsAt, List.getD_eq_getElem?_getD, hget, Option.getD_some]

/-- The two bound searches never cross, whatever the ring contains. -/
theorem lowerBoundIdx_le_upperBoundIdx (r : RingBuffer F) (fromTs toTs : Int)
    (hle : fromTs ≤ toTs) : r.lowerBoundIdx fromTs ≤ r.upperBoundIdx toTs := by
  apply bisect_mono
  intro i hi
  simp only [decide_eq_true_eq] at hi ⊢
  omega

/-- A range query returns a contiguous slice of the ring. -/
theorem range_eq_slice (r : RingBuffer F) (fromTs toTs : Int) (hle : fromTs ≤ toTs) :
    r.range fromTs toTs =
      (r.toVec.take (r.upperBoundIdx toTs)).drop (r.lowerBoundIdx fromTs) := by
  unfold range
  by_cases hlen : r.len = 0
  · have hnil : r.toVec = [] := by rw [← List.length_eq_zero_iff, length_toVec, hlen]
    rw [if_pos (Or.inl hlen), hnil, List.take_nil, List.drop_nil]
  · rw [if_neg (by omega), r.copyLogicalRange_eq _ _
      (r.lowerBoundIdx_le_upperBoundIdx fromTs toTs hle) (bisect_le _ _),
      toVec_eq_logical]

theorem mem_toVec_of_mem_range (r : RingBuffer F) (fromTs toTs : Int) (c : Candle F)
    (h : c ∈ r.range fromTs toTs) : c ∈ r.toVec := by
  by_cases hle : fromTs ≤ toTs
  · rw [r.range_eq_slice fromTs toTs hle] at h
    exact List.mem_of_mem_take (List.mem_of_mem_drop h)
  · rw [range, if_pos (Or.inr (by omega))] at h
    exact absurd h List.not_mem_nil

/-- Everything before the search result passes the test and everything after it
fails, when the ring is in timestamp order. -/
private theorem bisect_sorted (r : RingBuffer F) (p : Int → Bool)
    (hp : ∀ a b, a ≤ b → p b = true → p a = true)
    (hsorted : r.toVec.Pairwise (fun a b => a.ts ≤ b.ts)) (i : Nat)
    (hi : i < r.toVec.length) :
    i < bisect (fun mid => p (r.tsAt mid)) 0 r.len ↔ p r.toVec[i].ts = true := by
  have hlen : r.toVec.length = r.len := r.length_toVec
  have hspec := bisect_spec (fun mid => p (r.tsAt mid)) r.len (by
    intro j k hjk hk hpk
    rw [r.tsAt_eq k (by omega)] at hpk
    rw [r.tsAt_eq j (by omega)]
    rcases Nat.lt_or_eq_of_le hjk with hlt | heq
    · exact hp _ _ (List.pairwise_iff_getElem.1 hsorted j k (by omega) (by omega) hlt)
        hpk
    · subst heq
      exact hpk)
  constructor
  · intro hlt
    have := hspec.1 i hlt
    rwa [r.tsAt_eq i hi] at this
  · intro hpi
    by_contra hge
    have := hspec.2 i (Nat.not_lt.mp hge) (by omega)
    rw [r.tsAt_eq i hi, hpi] at this
    exact Bool.noConfusion this

theorem lt_lowerBoundIdx_iff (r : RingBuffer F) (fromTs : Int)
    (hsorted : r.toVec.Pairwise (fun a b => a.ts ≤ b.ts)) (i : Nat)
    (hi : i < r.toVec.length) : i < r.lowerBoundIdx fromTs ↔ r.toVec[i].ts < fromTs := by
  have h := r.bisect_sorted (fun t => decide (t < fromTs))
    (by intro a b hab; simp only [decide_eq_true_eq]; omega) hsorted i hi
  simpa [lowerBoundIdx] using h

theorem lt_upperBoundIdx_iff (r : RingBuffer F) (toTs : Int)
    (hsorted : r.toVec.Pairwise (fun a b => a.ts ≤ b.ts)) (i : Nat)
    (hi : i < r.toVec.length) : i < r.upperBoundIdx toTs ↔ r.toVec[i].ts ≤ toTs := by
  have h := r.bisect_sorted (fun t => decide (t ≤ toTs))
    (by intro a b hab; simp only [decide_eq_true_eq]; omega) hsorted i hi
  simpa [upperBoundIdx] using h

/-- On a ring in timestamp order a range query is exactly the window filter. -/
theorem range_eq_filter (r : RingBuffer F) (fromTs toTs : Int)
    (hsorted : r.toVec.Pairwise (fun a b => a.ts ≤ b.ts)) :
    r.range fromTs toTs =
      r.toVec.filter (fun c => decide (fromTs ≤ c.ts ∧ c.ts ≤ toTs)) := by
  by_cases hle : fromTs ≤ toTs
  · have hup : r.upperBoundIdx toTs ≤ r.toVec.length := by
      rw [length_toVec]
      exact bisect_le _ _
    rw [r.range_eq_slice fromTs toTs hle]
    symm
    apply filter_eq_slice _ _ (r.lowerBoundIdx_le_upperBoundIdx fromTs toTs hle) hup
    intro i hi
    rw [decide_eq_true_eq, r.lt_upperBoundIdx_iff toTs hsorted i hi, ← Nat.not_lt,
      r.lt_lowerBoundIdx_iff fromTs hsorted i hi, Int.not_lt]
  · rw [range, if_pos (Or.inr (by omega))]
    symm
    rw [List.filter_eq_nil_iff]
    intro c _
    simp only [decide_eq_true_eq]
    omega

end Query

end RingBuffer

end Candlestore
