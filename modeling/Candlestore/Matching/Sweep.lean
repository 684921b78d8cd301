import Mathlib.Tactic.Linarith
import Candlestore.Matching.Book

/-!
# The matching loops in exact arithmetic

With exact quantities every trade uses up one of its two sides, so each loop of
the matcher makes one pass over its list.  `fillLevel` is that pass over a
level and `sweep` the one over the levels, best first.  This file shows that
the loops of the book compute them, given fuel for the resting orders.
-/

namespace Candlestore.Matching

open Candlestore Lib

variable {F : Type}

/-- What matching leaves: the events, the taker and the resting orders. -/
structure Matched (F α : Type) where
  events : List (TradeEvent F)
  taker : Order F
  left : α

section Passes

variable [F64 F]

/-- One pass over the queue of a level. -/
def fillLevel (key : Nat) (ts : Int) (taker : Order F) :
    List (Order F) → Matched F (List (Order F))
  | [] => ⟨[], taker, []⟩
  | maker :: rest =>
      if taker.isFilled then ⟨[], taker, maker :: rest⟩
      else
        let qty := tradeQty taker maker
        if (maker.debit qty).isFilled then
          let m := fillLevel key ts (taker.debit qty) rest
          ⟨fillPair key ts taker maker ++ m.events, m.taker, m.left⟩
        else ⟨fillPair key ts taker maker, taker.debit qty, maker.debit qty :: rest⟩

/-- Levels of one side in the order a taker meets them. -/
abbrev Ladder (F : Type) := List (Nat × List (Order F))

/-- A level with its queue replaced, gone if the queue is empty. -/
def putLevel (key : Nat) (queue : List (Order F)) (rest : Ladder F) : Ladder F :=
  if queue.isEmpty then rest else (key, queue) :: rest

/-- One pass over the levels. -/
def sweep (side : Side) (limit : Option Nat) (ts : Int) (taker : Order F) :
    Ladder F → Matched F (Ladder F)
  | [] => ⟨[], taker, []⟩
  | (key, queue) :: rest =>
      if outOfReach side limit key then ⟨[], taker, (key, queue) :: rest⟩
      else
        let m := fillLevel key ts taker queue
        if m.taker.isFilled then ⟨m.events, m.taker, putLevel key m.left rest⟩
        else
          let m' := sweep side limit ts m.taker rest
          ⟨m.events ++ m'.events, m'.taker, m'.left⟩

end Passes

/-! ## One trade -/

theorem isFilled_iff (o : Order ℚ) :
    o.isFilled = true ↔ o.remaining ≤ o.qty * (1 / 1000000000) := by
  rw [Order.isFilled, qtyIsZero, decide_eq_true_eq]
  rfl

theorem tradeQty_le_taker (taker maker : Order ℚ) :
    tradeQty taker maker ≤ taker.remaining :=
  min_le_left _ _

/-- A trade leaves the taker no less than nothing. -/
theorem debit_tradeQty_nonneg (taker maker : Order ℚ) :
    0 ≤ (taker.debit (tradeQty taker maker)).remaining := by
  rw [Order.debit_remaining]
  exact sub_nonneg.2 (tradeQty_le_taker taker maker)

theorem tradeQty_le_maker (taker maker : Order ℚ) :
    tradeQty taker maker ≤ maker.remaining :=
  min_le_right _ _

theorem isFilled_debit_remaining (o : Order ℚ) (ho : 0 ≤ o.qty) :
    (o.debit o.remaining).isFilled = true := by
  rw [isFilled_iff, Order.debit_remaining, Order.debit_qty]
  change o.remaining - o.remaining ≤ o.qty * (1 / 1000000000)
  rw [sub_self]
  positivity

/-- A trade uses up the side with less remaining. -/
theorem isFilled_debit_or (taker maker : Order ℚ) (ht : 0 ≤ taker.qty)
    (hm : 0 ≤ maker.qty) :
    (taker.debit (tradeQty taker maker)).isFilled = true ∨
      (maker.debit (tradeQty taker maker)).isFilled = true := by
  rcases min_choice taker.remaining maker.remaining with h | h
  · left
    have hq : tradeQty taker maker = taker.remaining := h
    rw [hq]
    exact isFilled_debit_remaining taker ht
  · right
    have hq : tradeQty taker maker = maker.remaining := h
    rw [hq]
    exact isFilled_debit_remaining maker hm

/-- A taker that is hungry after a trade took all the maker had. -/
theorem tradeQty_eq_maker (taker maker : Order ℚ) (ht : 0 ≤ taker.qty)
    (h : (taker.debit (tradeQty taker maker)).isFilled = false) :
    tradeQty taker maker = maker.remaining := by
  rcases min_choice taker.remaining maker.remaining with hmin | hmin
  · have hq : tradeQty taker maker = taker.remaining := hmin
    rw [hq, isFilled_debit_remaining taker ht] at h
    exact absurd h (by simp)
  · exact hmin

/-! ## The loop inside a level -/

/-- A pass that leaves the taker hungry leaves nothing behind. -/
theorem fillLevel_left_nil (key : Nat) (ts : Int) (queue : List (Order ℚ))
    (taker : Order ℚ) (ht : 0 ≤ taker.qty) (hq : ∀ m ∈ queue, 0 ≤ m.qty)
    (h : (fillLevel key ts taker queue).taker.isFilled = false) :
    (fillLevel key ts taker queue).left = [] := by
  induction queue generalizing taker with
  | nil => rfl
  | cons maker rest ih =>
      rw [fillLevel] at h ⊢
      by_cases hf : taker.isFilled = true
      · rw [if_pos hf] at h
        rw [hf] at h
        exact absurd h (by simp)
      · rw [if_neg hf] at h ⊢
        dsimp only at h ⊢
        by_cases hm : (maker.debit (tradeQty taker maker)).isFilled = true
        · rw [if_pos hm] at h ⊢
          exact ih _ ht (fun m hm => hq m (List.mem_cons_of_mem maker hm)) h
        · rw [if_neg hm] at h
          have hor := isFilled_debit_or taker maker ht (hq maker List.mem_cons_self)
          rw [h] at hor
          exact absurd (hor.resolve_left (by simp)) hm

/-- The loop of `fill_at` is one pass over the level. -/
theorem fillLoop_eq (key : Nat) (ts : Int) (queue : List (Order ℚ)) (taker : Order ℚ)
    (events : List (TradeEvent ℚ)) (fuel : Nat) (ht : 0 ≤ taker.qty)
    (hq : ∀ m ∈ queue, 0 ≤ m.qty) (hfuel : queue.length < fuel) :
    fillLoop key ts fuel taker queue events =
      .ok ((fillLevel key ts taker queue).taker, (fillLevel key ts taker queue).left,
        events ++ (fillLevel key ts taker queue).events) := by
  induction queue generalizing taker events fuel with
  | nil =>
      obtain ⟨fuel, rfl⟩ : ∃ n, fuel = n + 1 := ⟨fuel - 1, by omega⟩
      rw [fillLoop, fillLevel, List.append_nil]
      exact ite_self _
  | cons maker rest ih =>
      rw [List.length_cons] at hfuel
      obtain ⟨fuel, rfl⟩ : ∃ n, fuel = n + 1 := ⟨fuel - 1, by omega⟩
      have hrest : ∀ m ∈ rest, 0 ≤ m.qty :=
        fun m hm => hq m (List.mem_cons_of_mem maker hm)
      rw [fillLoop, fillLevel]
      by_cases hf : taker.isFilled = true
      · rw [if_pos hf, if_pos hf, List.append_nil]
      · rw [if_neg hf, if_neg hf]
        dsimp only
        by_cases hm : (maker.debit (tradeQty taker maker)).isFilled = true
        · rw [if_pos hm, if_pos hm,
            ih (taker.debit (tradeQty taker maker)) _ fuel ht hrest (by omega),
            List.append_assoc]
        · -- the maker is not used up, so the taker is and the loop ends
          have hfilled := (isFilled_debit_or taker maker ht
            (hq maker List.mem_cons_self)).resolve_right hm
          obtain ⟨fuel, rfl⟩ : ∃ n, fuel = n + 1 := ⟨fuel - 1, by omega⟩
          rw [if_neg hm, if_neg hm, fillLoop, if_pos hfilled]

theorem fillLevel_taker_side (key : Nat) (ts : Int) (queue : List (Order ℚ))
    (taker : Order ℚ) :
    (fillLevel key ts taker queue).taker.side = taker.side ∧
      (fillLevel key ts taker queue).taker.qty = taker.qty := by
  induction queue generalizing taker with
  | nil => exact ⟨rfl, rfl⟩
  | cons maker rest ih =>
      rw [fillLevel]
      split
      · exact ⟨rfl, rfl⟩
      · dsimp only
        split
        · exact ih (taker.debit (tradeQty taker maker))
        · exact ⟨rfl, rfl⟩

/-! ## The two sides of the book as ladders -/

/-- The levels of a map in the order a taker of side `side` meets them. -/
def ladder (side : Side) (levels : Levels F) : Ladder F :=
  match side with
  | .buy => levels.entries
  | .sell => levels.entries.reverse

section Ladder

variable {side : Side} {levels : Levels F} {key : Nat} {queue : List (Order F)}
  {rest : Ladder F}

theorem bestKey_eq (side : Side) (levels : Levels F) :
    bestKey side levels = (ladder side levels).head?.map Prod.fst := by
  cases side with
  | buy => rfl
  | sell =>
      rw [bestKey, ladder, List.head?_reverse]
      rfl

theorem mem_ladder (side : Side) (levels : Levels F) (x : Nat × List (Order F)) :
    x ∈ ladder side levels ↔ x ∈ levels.entries := by
  cases side with
  | buy => exact Iff.rfl
  | sell => exact List.mem_reverse

theorem get?_of_ladder_cons (h : ladder side levels = (key, queue) :: rest) :
    levels.get? key = some queue := by
  rw [SortedMap.get?_eq_some, ← mem_ladder side, h]
  exact List.mem_cons_self

private theorem entries_of_ladder_sell (h : ladder .sell levels = (key, queue) :: rest) :
    levels.entries = rest.reverse ++ [(key, queue)] := by
  rw [← List.reverse_cons, ← h, ladder, List.reverse_reverse]

/-- Writing to the best level changes the front of the ladder. -/
theorem ladder_insert_head (h : ladder side levels = (key, queue) :: rest)
    (q : List (Order F)) : ladder side (levels.insert key q) = (key, q) :: rest := by
  cases side with
  | buy =>
      have hsplit : levels.entries = [] ++ (key, queue) :: rest := h
      exact SortedMap.entries_insert_of_split hsplit q
  | sell =>
      rw [ladder, SortedMap.entries_insert_of_split (entries_of_ladder_sell h) q]
      simp

theorem ladder_erase_head (h : ladder side levels = (key, queue) :: rest) :
    ladder side (levels.erase key) = rest := by
  cases side with
  | buy =>
      have hsplit : levels.entries = [] ++ (key, queue) :: rest := h
      exact SortedMap.entries_erase_of_split hsplit
  | sell =>
      rw [ladder, SortedMap.entries_erase_of_split (entries_of_ladder_sell h)]
      simp

end Ladder

@[simp] theorem makers_setMakers (book : OrderBook F) (side : Side) (levels : Levels F) :
    (book.setMakers side levels).makers side = levels := by
  cases side <;> rfl

@[simp] theorem makers_opposite_setMakers (book : OrderBook F) (side : Side)
    (levels : Levels F) :
    (book.setMakers side levels).makers side.opposite = book.makers side.opposite := by
  cases side <;> rfl

@[simp] theorem setMakers_setMakers (book : OrderBook F) (side : Side)
    (l₁ l₂ : Levels F) :
    (book.setMakers side l₁).setMakers side l₂ = book.setMakers side l₂ := by
  cases side <;> rfl

@[simp] theorem setMakers_makers (book : OrderBook F) (side : Side) :
    book.setMakers side (book.makers side) = book := by
  cases side <;> rfl

/-! ## The loop over the levels -/

/-- One round of the outer loop: the best level is filled and dropped if that
emptied it. -/
theorem fillAt_best (book : OrderBook ℚ) (taker : Order ℚ)
    (events : List (TradeEvent ℚ)) (ts : Int) (fuel : Nat) {key : Nat}
    {queue : List (Order ℚ)} {rest : Ladder ℚ}
    (h : ladder taker.side (book.makers taker.side) = (key, queue) :: rest)
    (ht : 0 ≤ taker.qty) (hq : ∀ m ∈ queue, 0 ≤ m.qty) (hfuel : queue.length < fuel) :
    ∃ book', fillAt fuel book key taker events ts =
        .ok (book', (fillLevel key ts taker queue).taker,
          events ++ (fillLevel key ts taker queue).events) ∧
      ∃ levels, dropEmptyLevel book' taker.side key = book.setMakers taker.side levels ∧
        ladder taker.side levels =
          putLevel key (fillLevel key ts taker queue).left rest := by
  let left := (fillLevel key ts taker queue).left
  let levels := (book.makers taker.side).insert key left
  have hins : ladder taker.side levels = (key, left) :: rest := ladder_insert_head h left
  refine ⟨book.setMakers taker.side levels, ?_, ?_⟩
  · rw [fillAt, get?_of_ladder_cons h]
    simp only [fillLoop_eq key ts queue taker events fuel ht hq hfuel]
    rfl
  · rw [dropEmptyLevel, makers_setMakers, get?_of_ladder_cons hins]
    by_cases hempty : left.isEmpty = true
    · refine ⟨levels.erase key, ?_, ?_⟩
      · rw [Option.map_some, hempty, Option.getD_some, if_pos rfl, setMakers_setMakers]
      · rw [ladder_erase_head hins, putLevel, if_pos hempty]
    · refine ⟨levels, ?_, ?_⟩
      · rw [Option.map_some, Option.getD_some, if_neg hempty]
      · rw [hins, putLevel, if_neg hempty]

/-- The loop over the levels is one pass over the ladder. -/
theorem matchLoop_eq (side : Side) (limit : Option Nat) (ts : Int) (inner : Nat)
    (l : Ladder ℚ) (book : OrderBook ℚ) (taker : Order ℚ) (events : List (TradeEvent ℚ))
    (fuel : Nat) (hside : taker.side = side) (hl : ladder side (book.makers side) = l)
    (ht : 0 ≤ taker.qty) (hq : ∀ e ∈ l, ∀ m ∈ e.2, 0 ≤ m.qty)
    (hinner : ∀ e ∈ l, e.2.length < inner) (hfuel : l.length < fuel) :
    ∃ levels, ladder side levels = (sweep side limit ts taker l).left ∧
      matchLoop side limit ts inner fuel book taker events =
        .ok (book.setMakers side levels, (sweep side limit ts taker l).taker,
          events ++ (sweep side limit ts taker l).events) := by
  induction l generalizing book taker events fuel with
  | nil =>
      obtain ⟨fuel, rfl⟩ : ∃ n, fuel = n + 1 := ⟨fuel - 1, by omega⟩
      refine ⟨book.makers side, hl, ?_⟩
      simp only [matchLoop, bestKey_eq, hl, sweep, List.append_nil, setMakers_makers,
        List.head?_nil, Option.map_none]
  | cons e rest ih =>
      obtain ⟨key, queue⟩ := e
      rw [List.length_cons] at hfuel
      obtain ⟨fuel, rfl⟩ : ∃ n, fuel = n + 1 := ⟨fuel - 1, by omega⟩
      have hbest : bestKey side (book.makers side) = some key := by
        rw [bestKey_eq, hl]
        rfl
      simp only [matchLoop, hbest, sweep]
      by_cases hout : outOfReach side limit key = true
      · refine ⟨book.makers side, ?_, ?_⟩
        · rw [if_pos hout, hl]
        · rw [if_pos hout, if_pos hout, setMakers_makers, List.append_nil]
      · subst hside
        obtain ⟨book', hfill, levels, hdrop, hlevels⟩ :=
          fillAt_best book taker events ts inner hl ht
          (hq _ List.mem_cons_self) (hinner _ List.mem_cons_self)
        obtain ⟨hts, htq⟩ := fillLevel_taker_side key ts queue taker
        rw [if_neg hout, if_neg hout, hfill]
        simp only [bind, Except.bind, hdrop]
        by_cases hfilled : (fillLevel key ts taker queue).taker.isFilled = true
        · rw [if_pos hfilled]
          refine ⟨levels, hlevels, ?_⟩
          rw [if_pos hfilled]
          rfl
        · rw [if_neg hfilled]
          have hnil := fillLevel_left_nil key ts queue taker ht (hq _ List.mem_cons_self)
            (by simpa using hfilled)
          rw [hnil] at hlevels
          obtain ⟨levels', hlevels', heq⟩ := ih (book.setMakers taker.side levels)
            (fillLevel key ts taker queue).taker
            (events ++ (fillLevel key ts taker queue).events) fuel hts
            (by rw [makers_setMakers]; exact hlevels) (by rw [htq]; exact ht)
            (fun e he => hq e (List.mem_cons_of_mem _ he))
            (fun e he => hinner e (List.mem_cons_of_mem _ he)) (by omega)
          refine ⟨levels', hlevels', ?_⟩
          rw [if_neg hfilled, heq, setMakers_setMakers, List.append_assoc]

end Candlestore.Matching
