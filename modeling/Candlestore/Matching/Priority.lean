import Mathlib.Algebra.BigOperators.Group.List.Basic
import Mathlib.Algebra.Order.Ring.Rat
import Candlestore.Matching.Sweep

/-!
# Price-time priority as one greedy pass

The reference for matching is a greedy pass over one list: all reachable
makers, best price first and in arrival order inside a level.  The taker trades
with the front maker until it is filled or the list ends.  `sweep` goes level by
level instead, and this file shows that it is the same pass.
-/

namespace Candlestore.Matching

open Candlestore Lib

variable {F : Type}

/-- Resting orders with the key of their level, in the order a taker meets
them. -/
def queueOf (l : Ladder F) : List (Nat × Order F) :=
  l.flatMap fun e => e.2.map (Prod.mk e.1)

@[simp] theorem queueOf_nil : queueOf ([] : Ladder F) = [] := rfl

@[simp] theorem queueOf_cons (key : Nat) (queue : List (Order F)) (l : Ladder F) :
    queueOf ((key, queue) :: l) = queue.map (Prod.mk key) ++ queueOf l := rfl

theorem mem_queueOf (l : Ladder F) (key : Nat) (o : Order F) :
    (key, o) ∈ queueOf l ↔ ∃ queue, (key, queue) ∈ l ∧ o ∈ queue := by
  simp only [queueOf, List.mem_flatMap, List.mem_map, Prod.mk.injEq]
  constructor
  · rintro ⟨⟨k, queue⟩, he, x, hx, rfl, rfl⟩
    exact ⟨queue, he, hx⟩
  · rintro ⟨queue, he, ho⟩
    exact ⟨(key, queue), he, o, ho, rfl, rfl⟩

section Pass

variable [F64 F]

/-- The greedy pass.  A maker that is used up leaves the list and the next one
is met; otherwise the pass ends with it. -/
def priorityPass (ts : Int) (taker : Order F) :
    List (Nat × Order F) → Matched F (List (Nat × Order F))
  | [] => ⟨[], taker, []⟩
  | (key, maker) :: rest =>
      if taker.isFilled then ⟨[], taker, (key, maker) :: rest⟩
      else
        let qty := tradeQty taker maker
        if (maker.debit qty).isFilled then
          let m := priorityPass ts (taker.debit qty) rest
          ⟨fillPair key ts taker maker ++ m.events, m.taker, m.left⟩
        else ⟨fillPair key ts taker maker, taker.debit qty,
          (key, maker.debit qty) :: rest⟩

/-- The makers a limit lets the taker reach. -/
def reachable (side : Side) (limit : Option Nat) (l : Ladder F) : Ladder F :=
  l.filter fun e => !outOfReach side limit e.1

/-- The levels beyond the limit. -/
def unreachable (side : Side) (limit : Option Nat) (l : Ladder F) : Ladder F :=
  l.filter fun e => outOfReach side limit e.1

end Pass

/-! ## Cases of the pass -/

section Cases

variable (ts : Int) {taker : Order ℚ}

theorem priorityPass_filled (h : taker.isFilled = true) (q : List (Nat × Order ℚ)) :
    priorityPass ts taker q = ⟨[], taker, q⟩ := by
  cases q with
  | nil => rfl
  | cons e rest =>
      rw [priorityPass, if_pos h]

variable {key : Nat} {maker : Order ℚ} {rest : List (Nat × Order ℚ)}

theorem priorityPass_used (h : taker.isFilled = false)
    (hm : (maker.debit (tradeQty taker maker)).isFilled = true) :
    priorityPass ts taker ((key, maker) :: rest) =
      ⟨fillPair key ts taker maker ++
          (priorityPass ts (taker.debit (tradeQty taker maker)) rest).events,
        (priorityPass ts (taker.debit (tradeQty taker maker)) rest).taker,
        (priorityPass ts (taker.debit (tradeQty taker maker)) rest).left⟩ := by
  rw [priorityPass, if_neg (by simp [h])]
  exact if_pos hm

theorem priorityPass_last (h : taker.isFilled = false)
    (hm : (maker.debit (tradeQty taker maker)).isFilled = false) :
    priorityPass ts taker ((key, maker) :: rest) =
      ⟨fillPair key ts taker maker, taker.debit (tradeQty taker maker),
        (key, maker.debit (tradeQty taker maker)) :: rest⟩ := by
  rw [priorityPass, if_neg (by simp [h])]
  exact if_neg (by simp [hm])

/-- The pass as a relation: it stops, or meets a maker that survives the trade,
or uses a maker up and goes on. -/
inductive Pass (ts : Int) : Order ℚ → List (Nat × Order ℚ) →
    Matched ℚ (List (Nat × Order ℚ)) → Prop where
  | stop {taker : Order ℚ} {q : List (Nat × Order ℚ)} : q = [] ∨ taker.isFilled = true →
      Pass ts taker q ⟨[], taker, q⟩
  | last {taker : Order ℚ} {key : Nat} {maker : Order ℚ} {rest : List (Nat × Order ℚ)} :
      taker.isFilled = false → (maker.debit (tradeQty taker maker)).isFilled = false →
      Pass ts taker ((key, maker) :: rest)
        ⟨fillPair key ts taker maker, taker.debit (tradeQty taker maker),
          (key, maker.debit (tradeQty taker maker)) :: rest⟩
  | used {taker : Order ℚ} {key : Nat} {maker : Order ℚ} {rest : List (Nat × Order ℚ)}
      {m : Matched ℚ (List (Nat × Order ℚ))} :
      taker.isFilled = false → (maker.debit (tradeQty taker maker)).isFilled = true →
      Pass ts (taker.debit (tradeQty taker maker)) rest m →
      Pass ts taker ((key, maker) :: rest)
        ⟨fillPair key ts taker maker ++ m.events, m.taker, m.left⟩

/-- Facts about the pass are proved by induction on this. -/
theorem pass_priorityPass (taker : Order ℚ) (q : List (Nat × Order ℚ)) :
    Pass ts taker q (priorityPass ts taker q) := by
  induction q generalizing taker with
  | nil => exact .stop (Or.inl rfl)
  | cons e rest ih =>
      obtain ⟨key, maker⟩ := e
      cases hf : taker.isFilled with
      | true =>
          rw [priorityPass_filled ts hf]
          exact .stop (Or.inr hf)
      | false =>
          cases hm : (maker.debit (tradeQty taker maker)).isFilled with
          | true =>
              rw [priorityPass_used ts hf hm]
              exact .used hf hm (ih _)
          | false =>
              rw [priorityPass_last ts hf hm]
              exact .last hf hm

end Cases

/-! ## What a pass achieves -/

section Achieves

variable (ts : Int) (q : List (Nat × Order ℚ)) (taker : Order ℚ)

/-- A taker that is still hungry has taken every maker whole. -/
theorem priorityPass_hungry (ht : 0 ≤ taker.qty) (hq : ∀ e ∈ q, 0 ≤ e.2.qty)
    (h : (priorityPass ts taker q).taker.isFilled = false) :
    (priorityPass ts taker q).taker.remaining =
      taker.remaining - (q.map fun e => e.2.remaining).sum := by
  have hpass := pass_priorityPass ts taker q
  generalize priorityPass ts taker q = m at hpass h ⊢
  induction hpass with
  | stop hstop =>
      rcases hstop with rfl | hf
      · rw [List.map_nil, List.sum_nil, sub_zero]
      · exact absurd hf (by simp [h])
  | @last taker key maker rest hf hm =>
      exact absurd ((isFilled_debit_or taker maker ht
        (hq _ List.mem_cons_self)).resolve_right (by simp [hm])) (by simp [h])
  | @used taker key maker rest m hf hm hpass ih =>
      have hhungry : (taker.debit (tradeQty taker maker)).isFilled = false := by
        cases hpass with
        | stop _ => exact h
        | last hf _ => exact hf
        | used hf _ _ => exact hf
      have hrec := ih ht (fun e he => hq e (List.mem_cons_of_mem _ he)) h
      have hwhole := tradeQty_eq_maker taker maker ht hhungry
      rw [List.map_cons, List.sum_cons]
      refine hrec.trans ?_
      rw [Order.debit_remaining, hwhole]
      exact sub_sub _ _ _

/-- What remains of the taker only goes down, and not below zero. -/
theorem priorityPass_remaining (ht : 0 ≤ taker.remaining)
    (hq : ∀ e ∈ q, 0 ≤ e.2.remaining) :
    0 ≤ (priorityPass ts taker q).taker.remaining ∧
      (priorityPass ts taker q).taker.remaining ≤ taker.remaining := by
  -- what one trade with a maker leaves
  have hdebit : ∀ {taker maker : Order ℚ}, 0 ≤ taker.remaining → 0 ≤ maker.remaining →
      0 ≤ (taker.debit (tradeQty taker maker)).remaining ∧
        (taker.debit (tradeQty taker maker)).remaining ≤ taker.remaining := by
    intro taker maker ht hm
    refine ⟨debit_tradeQty_nonneg taker maker, ?_⟩
    rw [Order.debit_remaining]
    exact sub_le_self _ (le_min ht hm)
  have hpass := pass_priorityPass ts taker q
  generalize priorityPass ts taker q = m at hpass ⊢
  induction hpass with
  | stop _ => exact ⟨ht, le_refl _⟩
  | last _ _ => exact hdebit ht (hq _ List.mem_cons_self)
  | used _ _ _ ih =>
      have htrade := hdebit ht (hq _ List.mem_cons_self)
      obtain ⟨h₀, h₁⟩ := ih htrade.1 fun e he => hq e (List.mem_cons_of_mem _ he)
      exact ⟨h₀, h₁.trans htrade.2⟩

end Achieves

/-! ## A ladder is met as its queue -/

/-- Passing a level and then the rest is passing both together. -/
theorem priorityPass_level (key : Nat) (ts : Int) (queue : List (Order ℚ))
    (taker : Order ℚ) (rest : List (Nat × Order ℚ)) (ht : 0 ≤ taker.qty)
    (hq : ∀ m ∈ queue, 0 ≤ m.qty) :
    let m := fillLevel key ts taker queue
    let m' := priorityPass ts m.taker rest
    priorityPass ts taker (queue.map (Prod.mk key) ++ rest) =
      if m.taker.isFilled then ⟨m.events, m.taker, m.left.map (Prod.mk key) ++ rest⟩
      else ⟨m.events ++ m'.events, m'.taker, m'.left⟩ := by
  induction queue generalizing taker with
  | nil =>
      intro m m'
      by_cases hf : taker.isFilled = true
      · exact (priorityPass_filled ts hf rest).trans (if_pos hf).symm
      · exact (if_neg hf).symm
  | cons maker queue ih =>
      intro m m'
      have hqueue : ∀ m ∈ queue, 0 ≤ m.qty :=
        fun m hm => hq m (List.mem_cons_of_mem maker hm)
      rw [List.map_cons, List.cons_append]
      cases hf : taker.isFilled with
      | true =>
          have hm : m = ⟨[], taker, maker :: queue⟩ := by
            change fillLevel key ts taker (maker :: queue) = _
            rw [fillLevel, if_pos hf]
          rw [priorityPass_filled ts hf, hm]
          exact (if_pos hf).symm
      | false =>
          let taker' := taker.debit (tradeQty taker maker)
          cases hm : (maker.debit (tradeQty taker maker)).isFilled with
          | true =>
              have hlevel : m =
                  ⟨fillPair key ts taker maker ++ (fillLevel key ts taker' queue).events,
                  (fillLevel key ts taker' queue).taker,
                  (fillLevel key ts taker' queue).left⟩ := by
                change fillLevel key ts taker (maker :: queue) = _
                rw [fillLevel, if_neg (by simp [hf])]
                exact if_pos hm
              have hrec := ih taker' ht hqueue
              dsimp only at hrec
              rw [priorityPass_used ts hf hm, hrec]
              simp only [m', hlevel]
              split <;> simp
          | false =>
              have hlevel : m = ⟨fillPair key ts taker maker, taker',
                  maker.debit (tradeQty taker maker) :: queue⟩ := by
                change fillLevel key ts taker (maker :: queue) = _
                rw [fillLevel, if_neg (by simp [hf])]
                exact if_neg (by simp [hm])
              have hfilled : taker'.isFilled = true :=
                (isFilled_debit_or taker maker ht
                  (hq maker List.mem_cons_self)).resolve_right (by simp [hm])
              rw [priorityPass_last ts hf hm]
              simp only [hlevel, hfilled, if_true, List.map_cons, List.cons_append]
              rfl

/-- Levels come in an order in which reach, once lost, stays lost. -/
theorem ladder_reach (side : Side) (limit : Option Nat) (levels : Levels F) :
    (ladder side levels).Pairwise fun a b =>
      outOfReach side limit a.1 = true → outOfReach side limit b.1 = true := by
  cases limit with
  | none => exact List.pairwise_of_forall fun _ _ h => h
  | some k =>
      cases side with
      | buy =>
          refine levels.strict.imp ?_
          intro a b hab
          simp only [outOfReach, Option.map_some, Option.getD_some, beyond,
            decide_eq_true_eq]
          omega
      | sell =>
          refine (List.pairwise_reverse.2 levels.strict).imp ?_
          intro a b hab
          simp only [outOfReach, Option.map_some, Option.getD_some, beyond,
            decide_eq_true_eq]
          omega

section Reach

variable {side : Side} {limit : Option Nat} {e : Nat × List (Order F)} {l : Ladder F}

theorem reachable_cons (h : outOfReach side limit e.1 = false) :
    reachable side limit (e :: l) = e :: reachable side limit l :=
  List.filter_cons_of_pos (by simp [h])

theorem unreachable_cons (h : outOfReach side limit e.1 = false) :
    unreachable side limit (e :: l) = unreachable side limit l :=
  List.filter_cons_of_neg (by simp [h])

/-- From the first level out of reach on, nothing is reachable. -/
theorem reachable_eq_nil (hl : (e :: l).Pairwise fun a b =>
      outOfReach side limit a.1 = true → outOfReach side limit b.1 = true)
    (h : outOfReach side limit e.1 = true) :
    reachable side limit (e :: l) = [] ∧ unreachable side limit (e :: l) = e :: l := by
  have hall : ∀ x ∈ e :: l, outOfReach side limit x.1 = true := by
    intro x hx
    rcases List.mem_cons.1 hx with rfl | hx
    · exact h
    · exact (List.pairwise_cons.1 hl).1 x hx h
  constructor
  · rw [reachable, List.filter_eq_nil_iff]
    intro x hx
    simp [hall x hx]
  · rw [unreachable, List.filter_eq_self]
    exact hall

/-- The levels out of reach are the last ones. -/
theorem reachable_append_unreachable (l : Ladder F) (hl : l.Pairwise fun a b =>
      outOfReach side limit a.1 = true → outOfReach side limit b.1 = true) :
    reachable side limit l ++ unreachable side limit l = l := by
  induction l with
  | nil => rfl
  | cons e l ih =>
      cases he : outOfReach side limit e.1 with
      | false =>
          rw [reachable_cons he, unreachable_cons he, List.cons_append,
            ih (List.pairwise_cons.1 hl).2]
      | true =>
          obtain ⟨hnone, hall⟩ := reachable_eq_nil hl he
          rw [hnone, hall, List.nil_append]

end Reach

theorem queueOf_append (l₁ l₂ : Ladder F) :
    queueOf (l₁ ++ l₂) = queueOf l₁ ++ queueOf l₂ :=
  List.flatMap_append

theorem queueOf_putLevel (key : Nat) (queue : List (Order F)) (l : Ladder F) :
    queueOf (putLevel key queue l) = queue.map (Prod.mk key) ++ queueOf l := by
  cases queue with
  | nil => rfl
  | cons o queue => rfl

/-- The sweep over the levels is the greedy pass over the reachable makers. -/
theorem sweep_eq_priorityPass (side : Side) (limit : Option Nat) (ts : Int)
    (l : Ladder ℚ) (taker : Order ℚ) (ht : 0 ≤ taker.qty)
    (hq : ∀ e ∈ l, ∀ m ∈ e.2, 0 ≤ m.qty)
    (hl : l.Pairwise fun a b => outOfReach side limit a.1 = true →
      outOfReach side limit b.1 = true) :
    let m := priorityPass ts taker (queueOf (reachable side limit l))
    (sweep side limit ts taker l).events = m.events ∧
      (sweep side limit ts taker l).taker = m.taker ∧
      queueOf (sweep side limit ts taker l).left =
        m.left ++ queueOf (unreachable side limit l) := by
  induction l generalizing taker with
  | nil => exact ⟨rfl, rfl, rfl⟩
  | cons e l ih =>
      obtain ⟨key, queue⟩ := e
      have hrest := (List.pairwise_cons.1 hl).2
      have hqueue : ∀ m ∈ queue, 0 ≤ m.qty := hq _ List.mem_cons_self
      cases hout : outOfReach side limit key with
      | true =>
          obtain ⟨hnone, hall⟩ := reachable_eq_nil hl hout
          rw [hnone, hall, sweep, if_pos hout]
          exact ⟨rfl, rfl, rfl⟩
      | false =>
          rw [reachable_cons hout, unreachable_cons hout, queueOf_cons, sweep,
            if_neg (by simp [hout]), priorityPass_level key ts queue taker _ ht hqueue]
          cases hf : (fillLevel key ts taker queue).taker.isFilled with
          | true =>
              simp only [hf, if_true]
              refine ⟨trivial, trivial, ?_⟩
              rw [queueOf_putLevel, List.append_assoc, ← queueOf_append,
                reachable_append_unreachable l hrest]
          | false =>
              have hqty := (fillLevel_taker_side key ts queue taker).2
              obtain ⟨hev, htk, hleft⟩ := ih (fillLevel key ts taker queue).taker
                (by rw [hqty]; exact ht) (fun e he => hq e (List.mem_cons_of_mem _ he))
                hrest
              simp only [hf, Bool.false_eq_true, if_false]
              exact ⟨by rw [hev], htk, hleft⟩

end Candlestore.Matching
