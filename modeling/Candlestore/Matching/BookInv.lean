import Mathlib.Tactic.Positivity
import Candlestore.Matching.Priority

/-!
# The representation invariant of the book

Whatever is submitted, the two sides of the book never cross, no level is
empty, and every resting order is a limit order with more than dust remaining,
at the level of its price and behind the orders that arrived before it.
Arrival order is stated against the history of submitted orders: the orders of
a level, with their original quantity, are a sublist of it.
-/

namespace Candlestore.Matching

open Candlestore Lib

/-- The order as it was submitted. -/
def Order.original {F : Type} (o : Order F) : Order F := { o with remaining := o.qty }

@[simp] theorem Order.original_debit (o : Order ℚ) (q : ℚ) :
    (o.debit q).original = o.original := rfl

theorem Order.Built.original_eq {F : Type} {o : Order F} (h : o.Built) :
    o.original = o := by
  cases h <;> rfl

/-- An order that may rest on side `side` at level `key`. -/
structure Resting (side : Side) (key : Nat) (o : Order ℚ) : Prop where
  side_eq : o.side = side
  kind_eq : o.kind = .limit
  key_eq : ∃ p, o.price = some p ∧ tryPriceKey p = .ok key
  more_than_dust : o.qty * (1 / 1000000000) < o.remaining
  remaining_le : o.remaining ≤ o.qty

theorem Resting.qty_pos {side : Side} {key : Nat} {o : Order ℚ}
    (h : Resting side key o) : 0 < o.qty := by
  have := h.more_than_dust
  have := h.remaining_le
  linarith

theorem Resting.remaining_pos {side : Side} {key : Nat} {o : Order ℚ}
    (h : Resting side key o) : 0 < o.remaining := by
  have := h.more_than_dust
  have := h.qty_pos
  linarith

/-- One level: not empty, every order belongs there, and in arrival order. -/
structure LevelInv (history : List (Order ℚ)) (side : Side) (key : Nat)
    (queue : List (Order ℚ)) : Prop where
  ne_nil : queue ≠ []
  resting : ∀ o ∈ queue, Resting side key o
  arrival : (queue.map Order.original).Sublist history

/-- The representation invariant. -/
structure BookInv (history : List (Order ℚ)) (book : OrderBook ℚ) : Prop where
  bids : ∀ e ∈ book.bids.entries, LevelInv history .buy e.1 e.2
  asks : ∀ e ∈ book.asks.entries, LevelInv history .sell e.1 e.2
  uncrossed : ∀ b ∈ book.bids.entries, ∀ a ∈ book.asks.entries, b.1 < a.1

theorem bookInv_new (symbol : Symbol) : BookInv [] (OrderBook.new symbol) where
  bids := fun _ he => absurd he List.not_mem_nil
  asks := fun _ he => absurd he List.not_mem_nil
  uncrossed := fun _ he => absurd he List.not_mem_nil

theorem LevelInv.mono {history : List (Order ℚ)} {side : Side} {key : Nat}
    {queue : List (Order ℚ)} (h : LevelInv history side key queue) (o : Order ℚ) :
    LevelInv (history ++ [o]) side key queue where
  ne_nil := h.ne_nil
  resting := h.resting
  arrival := h.arrival.trans (List.sublist_append_left history [o])

/-- A book that did not change stays in order while the history grows. -/
theorem BookInv.mono {history : List (Order ℚ)} {book : OrderBook ℚ}
    (inv : BookInv history book) (o : Order ℚ) : BookInv (history ++ [o]) book where
  bids := fun e he => (inv.bids e he).mono o
  asks := fun e he => (inv.asks e he).mono o
  uncrossed := inv.uncrossed

/-- The levels a taker of side `side` meets hold orders of the other side. -/
theorem BookInv.makers {history : List (Order ℚ)} {book : OrderBook ℚ}
    (inv : BookInv history book) (side : Side) :
    ∀ e ∈ ladder side (book.makers side), LevelInv history side.opposite e.1 e.2 := by
  intro e he
  rw [mem_ladder] at he
  cases side with
  | buy => exact inv.asks e he
  | sell => exact inv.bids e he

/-! ## Matching keeps the levels in order -/

/-- What a pass leaves of a level keeps the level's invariant. -/
theorem LevelInv.fillLevel {history : List (Order ℚ)} {side : Side} {key : Nat}
    {queue : List (Order ℚ)} (h : LevelInv history side key queue) (ts : Int)
    (taker : Order ℚ) (ht : 0 ≤ taker.qty)
    (hne : (fillLevel key ts taker queue).left ≠ []) :
    LevelInv history side key (Matching.fillLevel key ts taker queue).left := by
  suffices hpass :
    (∀ o ∈ (Matching.fillLevel key ts taker queue).left, Resting side key o) ∧
      ((Matching.fillLevel key ts taker queue).left.map Order.original).Sublist
        (queue.map Order.original) from
    ⟨hne, hpass.1, hpass.2.trans h.arrival⟩
  have hresting := h.resting
  clear h hne
  induction queue generalizing taker with
  | nil => exact ⟨hresting, List.Sublist.refl _⟩
  | cons maker rest ih =>
      have hrest : ∀ o ∈ rest, Resting side key o :=
        fun o ho => hresting o (List.mem_cons_of_mem maker ho)
      have hmaker := hresting maker List.mem_cons_self
      rw [Matching.fillLevel]
      by_cases hf : taker.isFilled = true
      · rw [if_pos hf]
        exact ⟨hresting, List.Sublist.refl _⟩
      · rw [if_neg hf]
        dsimp only
        by_cases hm : (maker.debit (tradeQty taker maker)).isFilled = true
        · rw [if_pos hm]
          obtain ⟨hmem, hsub⟩ := ih (taker.debit (tradeQty taker maker)) ht hrest
          exact ⟨hmem, hsub.trans (List.sublist_cons_self _ _)⟩
        · rw [if_neg hm]
          refine ⟨?_, List.Sublist.refl _⟩
          have hpos : 0 ≤ tradeQty taker maker := by
            rw [isFilled_iff, not_le] at hf
            have htaker : 0 ≤ taker.remaining := by linarith
            exact le_min htaker hmaker.remaining_pos.le
          rw [isFilled_iff, not_le] at hm
          intro o ho
          rcases List.mem_cons.1 ho with rfl | ho
          · refine ⟨hmaker.side_eq, hmaker.kind_eq, hmaker.key_eq, hm, ?_⟩
            have := hmaker.remaining_le
            rw [Order.debit_remaining, Order.debit_qty]
            change maker.remaining - tradeQty taker maker ≤ maker.qty
            linarith
          · exact hrest o ho

theorem mem_putLevel {F : Type} {key : Nat} {queue : List (Order F)} {l : Ladder F}
    {e : Nat × List (Order F)} (h : e ∈ putLevel key queue l) :
    e ∈ l ∨ e = (key, queue) ∧ queue ≠ [] := by
  rw [putLevel] at h
  cases hq : queue with
  | nil => exact Or.inl (by simpa [hq] using h)
  | cons o os =>
      rw [hq] at h
      rcases List.mem_cons.1 h with rfl | h
      · exact Or.inr ⟨rfl, by simp⟩
      · exact Or.inl h

/-- A sweep keeps the invariant of the levels and adds no key. -/
theorem sweep_levelInv (history : List (Order ℚ)) (side own : Side) (limit : Option Nat)
    (ts : Int) (l : Ladder ℚ) (taker : Order ℚ) (ht : 0 ≤ taker.qty)
    (hl : ∀ e ∈ l, LevelInv history own e.1 e.2) :
    ∀ e ∈ (sweep side limit ts taker l).left,
      LevelInv history own e.1 e.2 ∧ ∃ queue, (e.1, queue) ∈ l := by
  induction l generalizing taker with
  | nil => exact fun e he => absurd he List.not_mem_nil
  | cons x l ih =>
      obtain ⟨key, queue⟩ := x
      have hrest : ∀ e ∈ l, LevelInv history own e.1 e.2 :=
        fun e he => hl e (List.mem_cons_of_mem _ he)
      have hkeep : ∀ e ∈ (key, queue) :: l,
          LevelInv history own e.1 e.2 ∧ ∃ q, (e.1, q) ∈ (key, queue) :: l :=
        fun e he => ⟨hl e he, e.2, he⟩
      intro e he
      rw [sweep] at he
      by_cases hout : outOfReach side limit key = true
      · rw [if_pos hout] at he
        exact hkeep e he
      · rw [if_neg hout] at he
        dsimp only at he
        by_cases hf : (fillLevel key ts taker queue).taker.isFilled = true
        · rw [if_pos hf] at he
          rcases mem_putLevel he with he | ⟨rfl, hne⟩
          · exact hkeep e (List.mem_cons_of_mem _ he)
          · exact ⟨(hl _ List.mem_cons_self).fillLevel ts taker ht hne, queue,
              List.mem_cons_self⟩
        · rw [if_neg hf] at he
          have hqty := (fillLevel_taker_side key ts queue taker).2
          obtain ⟨hinv, q, hq⟩ := ih _ (by rw [hqty]; exact ht) hrest e he
          exact ⟨hinv, q, List.mem_cons_of_mem _ hq⟩

/-- A sweep that leaves the taker hungry leaves only levels out of its reach. -/
theorem sweep_hungry (side : Side) (limit : Option Nat) (ts : Int) (l : Ladder ℚ)
    (taker : Order ℚ)
    (hl : l.Pairwise fun a b => outOfReach side limit a.1 = true →
      outOfReach side limit b.1 = true) (h :
      (sweep side limit ts taker l).taker.isFilled = false) :
    ∀ e ∈ (sweep side limit ts taker l).left, outOfReach side limit e.1 = true := by
  induction l generalizing taker with
  | nil => exact fun e he => absurd he List.not_mem_nil
  | cons x l ih =>
      obtain ⟨key, queue⟩ := x
      obtain ⟨hfirst, hrest⟩ := List.pairwise_cons.1 hl
      rw [sweep] at h ⊢
      by_cases hout : outOfReach side limit key = true
      · rw [if_pos hout]
        intro e he
        rcases List.mem_cons.1 he with rfl | he
        · exact hout
        · exact hfirst e he hout
      · rw [if_neg hout] at h ⊢
        dsimp only at h ⊢
        by_cases hf : (fillLevel key ts taker queue).taker.isFilled = true
        · rw [if_pos hf] at h
          exact absurd hf (by simp [h])
        · rw [if_neg hf] at h ⊢
          exact ih _ hrest h

end Candlestore.Matching
