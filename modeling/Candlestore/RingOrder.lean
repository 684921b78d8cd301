import Mathlib.Data.Set.Finite.Lattice
import Candlestore.Lib.Window
import Candlestore.RingBuffer

/-!
# Out-of-order pushes and range queries

`push` reports a candle whose timestamp is below the one pushed before it.  This
file follows those reports through a run of pushes.  The candles still in the
ring are in timestamp order exactly when none of them but the oldest was
reported, and that is exactly when the two binary searches of `range` can be
trusted: in that case a query is the filter of the contents, and in every other
case some window makes it return a candle from outside.
-/

namespace Candlestore.RingBuffer

open Lib

variable {F : Type}

/-- Push the candles one by one, keeping each with what its push reported. -/
def pushAll (r : RingBuffer F) :
    List (Candle F) → List (Candle F × PushOutcome) × RingBuffer F
  | [] => ([], r)
  | c :: cs =>
      let rest := (r.push c).2.pushAll cs
      ((c, (r.push c).1) :: rest.1, rest.2)

/-- The reports of the candles in the ring, without the oldest, are all `Ok`. -/
def InOrder (log : List (Candle F × PushOutcome)) (r : RingBuffer F) : Prop :=
  ∀ p ∈ (log.rtake r.len).tail, p.2 = .ok

instance (log : List (Candle F × PushOutcome)) (r : RingBuffer F) :
    Decidable (InOrder log r) :=
  inferInstanceAs (Decidable (∀ p ∈ (log.rtake r.len).tail, p.2 = .ok))

theorem map_fst_pushAll (r : RingBuffer F) (cs : List (Candle F)) :
    (r.pushAll cs).1.map Prod.fst = cs := by
  induction cs generalizing r with
  | nil => rfl
  | cons c cs ih => exact congrArg (c :: ·) (ih (r.push c).2)

/-- What has been pushed so far ends in what the ring holds. -/
theorem toVec_pushAll (r : RingBuffer F) (past cs : List (Candle F))
    (hvec : r.toVec = past.rtake r.capacity) :
    (r.pushAll cs).2.toVec = (past ++ cs).rtake r.capacity := by
  induction cs generalizing r past with
  | nil => rw [List.append_nil]; exact hvec
  | cons c cs ih =>
      have hpush := ih (r.push c).2 (past ++ [c])
        (by rw [capacity_push]; exact r.toVec_push c past hvec)
      rw [capacity_push, List.append_assoc] at hpush
      exact hpush

/-- A push is reported in order exactly if its timestamp is not below the one
before it. -/
theorem push_ok_iff (r : RingBuffer F) (c : Candle F) {prev : Int}
    (h : r.lastTs = some prev) : (r.push c).1 = .ok ↔ prev ≤ c.ts := by
  simp only [push, h]
  split
  · next hlt => exact iff_of_false (fun heq => by cases heq) (by omega)
  · next hge => exact iff_of_true rfl (by omega)

/-- The report of a candle compares it with the candle before it in the log. -/
def Reports (p q : Candle F × PushOutcome) : Prop := q.2 = .ok ↔ p.1.ts ≤ q.1.ts

theorem isChain_pushAll (r : RingBuffer F) (cs : List (Candle F)) :
    (r.pushAll cs).1.IsChain Reports := by
  induction cs generalizing r with
  | nil => exact List.IsChain.nil
  | cons c cs ih =>
      cases cs with
      | nil => exact List.IsChain.singleton _
      | cons d cs =>
          refine List.isChain_cons_cons.2 ⟨?_, ih (r.push c).2⟩
          exact (r.push c).2.push_ok_iff d rfl

/-- Along a chain of reports, reports in order are timestamps in order. -/
theorem tail_ok_iff {log : List (Candle F × PushOutcome)} (h : log.IsChain Reports) :
    (∀ p ∈ log.tail, p.2 = .ok) ↔ (log.map Prod.fst).IsChain fun a b => a.ts ≤ b.ts := by
  induction h with
  | nil => exact iff_of_true (fun _ hp => by cases hp) List.IsChain.nil
  | singleton p => exact iff_of_true (fun _ hp => by cases hp) (List.IsChain.singleton _)
  | @cons_cons p q rest hpq _ ih =>
      rw [List.map_cons, List.map_cons, List.isChain_cons_cons]
      rw [List.map_cons] at ih
      simp only [List.tail_cons, List.forall_mem_cons] at ih ⊢
      exact and_congr hpq ih

section Reached

variable [F64 F] {capacity : Nat} (hcap : 0 < capacity) (cs : List (Candle F))

/-- The ring holds the last candles of the log. -/
theorem toVec_pushAll_new : ((new capacity hcap).pushAll cs).2.toVec =
    (((new capacity hcap).pushAll cs).1.rtake ((new capacity hcap).pushAll cs).2.len).map
      Prod.fst := by
  have hvec := (new capacity hcap).toVec_pushAll [] cs
    (by rw [toVec_new, List.rtake_nil])
  have hlen := length_rtake cs capacity
  rw [capacity_new, List.nil_append] at hvec
  rw [← hvec, length_toVec] at hlen
  rw [map_rtake, map_fst_pushAll, hvec, hlen]
  rcases Nat.le_total capacity cs.length with hle | hge
  · rw [Nat.min_eq_left hle]
  · rw [Nat.min_eq_right hge, rtake_of_length_le hge, rtake_of_length_le (Nat.le_refl _)]

/-- The reports say whether the contents are in timestamp order. -/
theorem inOrder_iff_sorted :
    InOrder ((new capacity hcap).pushAll cs).1 ((new capacity hcap).pushAll cs).2 ↔
      ((new capacity hcap).pushAll cs).2.toVec.Pairwise fun a b => a.ts ≤ b.ts := by
  have hchain : (((new capacity hcap).pushAll cs).1.rtake
      ((new capacity hcap).pushAll cs).2.len).IsChain Reports :=
    (isChain_pushAll (new capacity hcap) cs).drop _
  rw [toVec_pushAll_new hcap cs, InOrder, tail_ok_iff hchain]
  have htrans : IsTrans (Candle F) fun a b => a.ts ≤ b.ts := ⟨fun _ _ _ => Int.le_trans⟩
  exact List.isChain_iff_pairwise

end Reached

section Sound

variable [F64 F]

/-- Two searches split the contents at the same place, one for each side of a
threshold. -/
theorem upperBoundIdx_pred (r : RingBuffer F) (t : Int) :
    r.upperBoundIdx (t - 1) = r.lowerBoundIdx t := by
  unfold upperBoundIdx lowerBoundIdx
  congr 1
  funext mid
  exact decide_eq_decide.2 (by omega)

/-- A window open to the right returns everything from the lower bound on. -/
theorem range_from (r : RingBuffer F) {t top : Int} (hle : t ≤ top)
    (htop : ∀ c ∈ r.toVec, c.ts ≤ top) :
    r.range t top = r.toVec.drop (r.lowerBoundIdx t) := by
  have hupper : r.upperBoundIdx top = r.toVec.length := by
    rw [length_toVec]
    apply bisect_eq_top
    intro i hi
    rw [← length_toVec] at hi
    rw [r.tsAt_eq i hi]
    exact decide_eq_true (htop _ (List.getElem_mem hi))
  rw [r.range_eq_slice t top hle, hupper, List.take_length]

/-- A window open to the left returns everything below the upper bound. -/
theorem range_to (r : RingBuffer F) {bottom t : Int} (hle : bottom ≤ t)
    (hbottom : ∀ c ∈ r.toVec, bottom ≤ c.ts) :
    r.range bottom t = r.toVec.take (r.upperBoundIdx t) := by
  have hlower : r.lowerBoundIdx bottom = 0 := by
    apply bisect_eq_bot
    intro i hi
    rw [← length_toVec] at hi
    rw [r.tsAt_eq i hi]
    exact decide_eq_false (Int.not_lt.2 (hbottom _ (List.getElem_mem hi)))
  rw [r.range_eq_slice bottom t hle, hlower, List.drop_zero]

/-- Only candles of the window are returned, for every window. -/
def RangeSound (r : RingBuffer F) : Prop :=
  ∀ fromTs toTs, fromTs ≤ toTs → ∀ c ∈ r.range fromTs toTs, fromTs ≤ c.ts ∧ c.ts ≤ toTs

theorem rangeSound_of_sorted (r : RingBuffer F)
    (hsorted : r.toVec.Pairwise fun a b => a.ts ≤ b.ts) : r.RangeSound := by
  intro fromTs toTs _ c hc
  rw [r.range_eq_filter fromTs toTs hsorted] at hc
  exact of_decide_eq_true (List.mem_filter.1 hc).2

/-- Where the timestamps go down, the split at the higher one is after both
candles or before both, and one of the two open windows returns the wrong one. -/
theorem RangeSound.step_le {r : RingBuffer F} (h : r.RangeSound) (i : Nat)
    (hi : i + 1 < r.toVec.length) : r.toVec[i].ts ≤ r.toVec[i + 1].ts := by
  by_contra hdown
  obtain ⟨top, htop⟩ := (r.toVec.map Candle.ts).finite_toSet.bddAbove
  obtain ⟨bottom, hbottom⟩ := (r.toVec.map Candle.ts).finite_toSet.bddBelow
  have hupper : ∀ c ∈ r.toVec, c.ts ≤ top := fun c hc => htop (List.mem_map_of_mem hc)
  have hlower : ∀ c ∈ r.toVec, bottom ≤ c.ts :=
    fun c hc => hbottom (List.mem_map_of_mem hc)
  have hfirst : r.toVec[i] ∈ r.toVec := List.getElem_mem _
  have hsecond : r.toVec[i + 1] ∈ r.toVec := List.getElem_mem _
  have hright := h r.toVec[i].ts top (hupper _ hfirst) r.toVec[i + 1]
  have hleft := h bottom (r.toVec[i].ts - 1)
    (by have := hlower _ hsecond; omega) r.toVec[i]
  rw [r.range_from (hupper _ hfirst) hupper, List.mem_drop_iff_getElem] at hright
  rw [r.range_to (by have := hlower _ hsecond; omega) hlower, upperBoundIdx_pred,
    List.mem_take_iff_getElem] at hleft
  rcases Nat.lt_or_ge i (r.lowerBoundIdx r.toVec[i].ts) with hlt | hge
  · have hout := hleft ⟨i, by omega, rfl⟩
    omega
  · have hout := hright ⟨i + 1 - r.lowerBoundIdx r.toVec[i].ts, by omega, by
      congr 1
      omega⟩
    omega

end Sound

/-! ## Queries after a run of pushes -/

section Queries

variable [F64 F]

/-- If no candle in the ring but the oldest was reported out of order, a range
query is the filter of the contents. -/
theorem range_exact_of_inOrder (capacity : Nat) (hcap : 0 < capacity)
    (cs : List (Candle F)) :
    let (log, r) := (new capacity hcap).pushAll cs
    r.toVec = (log.rtake r.len).map Prod.fst ∧
      (InOrder log r → ∀ fromTs toTs, r.range fromTs toTs =
        r.toVec.filter fun c => fromTs ≤ c.ts ∧ c.ts ≤ toTs) := by
  refine ⟨toVec_pushAll_new hcap cs, ?_⟩
  intro horder fromTs toTs
  exact range_eq_filter _ fromTs toTs ((inOrder_iff_sorted hcap cs).1 horder)

/-- A ring of three after five pushes.  Its oldest candle was reported out of
order, and one timestamp is there twice. -/
theorem range_exact_of_inOrder_wrapped :
    let cs : List (Candle ℚ) :=
      [flatCandle 9 1, flatCandle 8 2, flatCandle 3 3, flatCandle 5 4, flatCandle 5 5]
    let (log, r) := (new 3 (by decide)).pushAll cs
    log.map Prod.snd = [.ok, .outOfOrder 9 8, .outOfOrder 8 3, .ok, .ok] ∧
      InOrder log r ∧
      r.toVec = [flatCandle 3 3, flatCandle 5 4, flatCandle 5 5] ∧
      r.range 4 9 = r.toVec.filter fun c => 4 ≤ c.ts ∧ c.ts ≤ 9 := by
  intro cs
  refine ⟨by decide, by decide, by decide, ?_⟩
  exact (range_exact_of_inOrder 3 (by decide) cs).2 (by decide) 4 9

/-- The three candles are the ones of a late kline: the last is older than the
second, and a window that starts between the two returns it. -/
theorem range_returns_outsider :
    let (log, r) := (new 8 (by decide)).pushAll
      [flatCandle 10 1, flatCandle 20 2, flatCandle 15 (3 / 2)]
    log.map Prod.snd = [.ok, .ok, .outOfOrder 20 15] ∧
      r.range 16 30 = [flatCandle 20 2, flatCandle 15 (3 / 2)] ∧
      ¬(16 : Int) ≤ (flatCandle 15 (3 / 2)).ts := by
  decide +kernel

/-- Range queries return only candles of the window exactly if no candle in the
ring but the oldest was reported out of order. -/
theorem rangeSound_iff_inOrder (capacity : Nat) (hcap : 0 < capacity)
    (cs : List (Candle F)) :
    let (log, r) := (new capacity hcap).pushAll cs
    r.RangeSound ↔ InOrder log r := by
  have hsorted := inOrder_iff_sorted hcap cs
  refine ⟨fun hsound => hsorted.2 ?_,
    fun horder => rangeSound_of_sorted _ (hsorted.1 horder)⟩
  have htrans : IsTrans (Candle F) fun a b => a.ts ≤ b.ts := ⟨fun _ _ _ => Int.le_trans⟩
  rw [← List.isChain_iff_pairwise, List.isChain_iff_getElem]
  exact hsound.step_le

/-- Five candles in order, two of them overwritten. -/
theorem rangeSound_iff_inOrder_wrapped :
    let cs : List (Candle ℚ) :=
      [flatCandle 1 1, flatCandle 2 2, flatCandle 3 3, flatCandle 3 4, flatCandle 5 5]
    let (log, r) := (new 3 (by decide)).pushAll cs
    InOrder log r ∧ r.RangeSound := by
  intro cs
  exact ⟨by decide, (rangeSound_iff_inOrder 3 (by decide) cs).2 (by decide)⟩

end Queries

end Candlestore.RingBuffer
