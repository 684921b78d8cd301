import Candlestore.Matching.TradePrice

/-!
# Fill or kill

A fill-or-kill order is matched only if a pre-check says that it will be filled.
The check adds up the quantity in reach in one sum and compares it with one
tolerance; the matcher trades level by level and stops by another.  In exact
arithmetic the two agree on every reachable book, so the order trades almost its
whole quantity or nothing at all.
-/

namespace Candlestore.Matching

open Candlestore Lib

/-! ## The quantity in reach -/

theorem key_le_u64Max {p : ℚ} {key : Nat} (h : tryPriceKey p = .ok key) :
    key ≤ u64Max := by
  obtain ⟨_, _, rfl⟩ := tryPriceKey_ok h
  exact Nat.min_le_left _ _

/-- What the makers in reach of a taker have left. -/
def inReach (book : OrderBook ℚ) (side : Side) (limit : Option Nat) : ℚ :=
  ((queueOf (reachable side limit (ladder side (book.makers side)))).map
    fun e => e.2.remaining).sum

section Check

variable {history : List (Order ℚ)} {book : OrderBook ℚ} (inv : BookInv history book)
  {order : Order ℚ} {limit : Option Nat}
include inv

/-- Without a limit the check reaches up to the largest key, or down to zero,
and so does every level. -/
theorem BookInv.availableTo_eq (side : Side) (limit : Option Nat) :
    availableTo book side limit = inReach book side limit := by
  cases limit with
  | some key => exact Matching.availableTo_eq book side key
  | none =>
      have hkeys : ∀ e ∈ ladder side (book.makers side), e.1 ≤ u64Max := by
        intro e he
        have hlevel := inv.makers side e he
        obtain ⟨o, ho⟩ := List.exists_mem_of_ne_nil _ hlevel.ne_nil
        obtain ⟨p, _, hkey⟩ := (hlevel.resting o ho).key_eq
        exact key_le_u64Max hkey
      cases side with
      | buy =>
          refine (Matching.availableTo_eq book .buy u64Max).trans ?_
          rw [inReach]
          congr 3
          refine List.filter_congr fun e he => ?_
          simpa [outOfReach, beyond] using hkeys e he
      | sell =>
          refine (Matching.availableTo_eq book .sell 0).trans ?_
          rw [inReach]
          congr 3

/-- The pre-check compares the order with the quantity in reach. -/
theorem BookInv.canFill_eq (hlimit : limitKey order = .ok limit) :
    canFill book order = .ok (decide (order.remaining * (1 - 1 / 1000000000) ≤
      inReach book order.side limit)) := by
  rw [← inv.availableTo_eq]
  simp only [canFill, hlimit, bind, Except.bind, pure, Except.pure]
  rfl

/-- The sweep fills a whole order exactly if enough is in reach. -/
theorem BookInv.sweepOf_filled_iff (hqty : 0 < order.qty)
    (hrem : order.remaining = order.qty) (limit : Option Nat) (ts : Int) :
    (sweepOf book order limit ts).taker.isFilled = true ↔
      order.remaining * (1 - 1 / 1000000000) ≤ inReach book order.side limit := by
  obtain ⟨_, htaker, _⟩ := inv.sweepOf_eq hqty.le limit ts
  have hresting := inv.reachable_resting order.side limit
  have hq : (sweepOf book order limit ts).taker.qty = order.qty :=
    (congrArg Order.qty (sweepOf_original book order limit ts) :)
  constructor
  · intro hfilled
    have hge := priorityPass_remaining_ge ts _ order fun e he =>
      (hresting e he).remaining_pos.le
    rw [isFilled_iff, hq] at hfilled
    rw [← htaker] at hge
    change order.remaining - inReach book order.side limit ≤ _ at hge
    rw [hrem] at hge ⊢
    linarith
  · intro henough
    exact inv.sweepOf_filled hqty.le hrem henough ts

end Check

/-! ## What the taker gets -/

/-- The quantity of the fills of one side. -/
def sideQty (side : Side) (events : List (TradeEvent ℚ)) : ℚ :=
  (((events.filterMap TradeEvent.fill?).filter fun f => f.side = side).map Fill.qty).sum

theorem sideQty_append (side : Side) (a b : List (TradeEvent ℚ)) :
    sideQty side (a ++ b) = sideQty side a + sideQty side b := by
  rw [sideQty, List.filterMap_append, List.filter_append, List.map_append,
    List.sum_append]
  rfl

theorem Side.opposite_ne (side : Side) : side.opposite ≠ side := by
  cases side <;> decide

theorem sideQty_fillPair (key : Nat) (ts : Int) {taker maker : Order ℚ}
    (hside : maker.side = taker.side.opposite) :
    sideQty taker.side (fillPair key ts taker maker) = tradeQty taker maker := by
  simp [sideQty, fillPair, Order.fillEvent, TradeEvent.fill?, hside, Side.opposite_ne]

/-- The fills on the taker's side add up to what it lost. -/
theorem sideQty_priorityPass (ts : Int) (q : List (Nat × Order ℚ)) (taker : Order ℚ)
    (hq : ∀ e ∈ q, e.2.side = taker.side.opposite) :
    sideQty taker.side (priorityPass ts taker q).events =
      taker.remaining - (priorityPass ts taker q).taker.remaining := by
  have hpass := pass_priorityPass ts taker q
  generalize priorityPass ts taker q = m at hpass ⊢
  induction hpass with
  | stop _ => exact (sub_self _).symm
  | @last taker key maker rest _ _ =>
      rw [sideQty_fillPair key ts (hq (key, maker) List.mem_cons_self),
        Order.debit_remaining]
      exact (sub_sub_cancel _ _).symm
  | @used taker key maker rest m _ _ _ ih =>
      have hrec := ih fun e he => hq e (List.mem_cons_of_mem _ he)
      rw [Order.debit_side, Order.debit_remaining] at hrec
      rw [sideQty_append, sideQty_fillPair key ts (hq (key, maker) List.mem_cons_self),
        hrec]
      change tradeQty taker maker + (taker.remaining - tradeQty taker maker - _) = _
      ring

/-- A pass leaves makers as they were submitted, or takes them out. -/
theorem priorityPass_left_original (ts : Int) (q : List (Nat × Order ℚ))
    (taker : Order ℚ) :
    ((priorityPass ts taker q).left.map fun e => (e.1, e.2.original)).Sublist
      (q.map fun e => (e.1, e.2.original)) := by
  have hpass := pass_priorityPass ts taker q
  generalize priorityPass ts taker q = m at hpass ⊢
  induction hpass with
  | stop _ => exact List.Sublist.refl _
  | last _ _ => exact List.Sublist.refl _
  | used _ _ _ ih => exact ih.trans (List.sublist_cons_self _ _)

/-! ## All or nothing -/

/-- Nothing of a taker rests: its own side of the book is as it was, and the other side
holds only orders that were there. -/
def NothingRests (side : Side) (book book' : OrderBook ℚ) : Prop :=
  book'.makers side.opposite = book.makers side.opposite ∧
    ((restingQueue book' side).map fun e => (e.1, e.2.original)).Sublist
      ((restingQueue book side).map fun e => (e.1, e.2.original))

section Swept

variable {history : List (Order ℚ)} {book : OrderBook ℚ} (inv : BookInv history book)
  {order : Order ℚ} {limit : Option Nat} {ts : Int}
include inv

theorem BookInv.nothingRests_swept (hqty : 0 < order.qty) {levels : Levels ℚ}
    (hlevels : ladder order.side levels = (sweepOf book order limit ts).left) :
    NothingRests order.side book (book.setMakers order.side levels) := by
  refine ⟨makers_opposite_setMakers _ _ _, ?_⟩
  rw [restingQueue, makers_setMakers, hlevels, (inv.sweepOf_eq hqty.le limit ts).2.2,
    restingQueue_split order.side limit, List.map_append, List.map_append]
  exact (priorityPass_left_original ts _ order).append (List.Sublist.refl _)

/-- A sweep that fills a whole order fills all of it but dust, and emits fills only. -/
theorem BookInv.sweepOf_whole (hqty : 0 < order.qty) (hrem : order.remaining = order.qty)
    (hfilled : (sweepOf book order limit ts).taker.isFilled = true) :
    (∀ e ∈ (sweepOf book order limit ts).events, e.isFill = true) ∧
      order.qty * (1 - 1 / 1000000000) ≤
        sideQty order.side (sweepOf book order limit ts).events ∧
      sideQty order.side (sweepOf book order limit ts).events ≤ order.qty := by
  obtain ⟨hevents, htaker, _⟩ := inv.sweepOf_eq hqty.le limit ts
  have hresting := inv.reachable_resting order.side limit
  have hremaining : 0 ≤ order.remaining := by
    rw [hrem]
    exact hqty.le
  have hmakers : ∀ e ∈ queueOf (reachable order.side limit
      (ladder order.side (book.makers order.side))), 0 ≤ e.2.remaining :=
    fun e he => (hresting e he).remaining_pos.le
  refine ⟨?_, ?_⟩
  · rw [hevents]
    intro e he
    obtain ⟨f, rfl, _⟩ := mem_priorityPass_events ts _ order hremaining hmakers e he
    rfl
  · have hsum := sideQty_priorityPass ts _ order fun e he => (hresting e he).side_eq
    have hnonneg := (priorityPass_remaining ts _ order hremaining hmakers).1
    have hq : (sweepOf book order limit ts).taker.qty = order.qty :=
      (congrArg Order.qty (sweepOf_original book order limit ts) :)
    rw [isFilled_iff, hq, htaker] at hfilled
    rw [hevents, hsum, hrem]
    constructor <;> linarith

end Swept

/-- On every reachable book and for every valid fill-or-kill order with its whole
quantity remaining: the pre-check says yes exactly if matching fills the order; a
submission then emits fills of all of the quantity but dust, and otherwise it emits one
cancel and leaves the book alone.  Either way nothing of the order rests. -/
theorem fok_all_or_nothing {symbol : Symbol} {book : OrderBook ℚ}
    {history : List (Order ℚ)} {past : List (TradeEvent ℚ)}
    (hrun : BookRun symbol book history past) (order : Order ℚ)
    (hkind : order.kind = .fok) (hrem : order.remaining = order.qty)
    (hvalid : validateOrder order = .ok ()) (ts : Int) :
    ∃ fillable book' taker events, canFill book order = .ok fillable ∧
      (∃ bound, ∀ fuel, bound < fuel →
        matchOrder fuel book order [] ts = .ok (book', taker, events) ∧
        submit fuel book order ts =
          .ok (if fillable then (book', events)
            else (book, [.cancel order.id .fokNoFill]))) ∧
      (fillable = true ↔ taker.isFilled = true) ∧
      (fillable = true → (∀ e ∈ events, e.isFill = true) ∧
        order.qty * (1 - 1 / 1000000000) ≤ sideQty order.side events ∧
        sideQty order.side events ≤ order.qty) ∧
      NothingRests order.side book book' := by
  have inv := hrun.bookInv
  obtain ⟨hqty, limit, hlimit, _⟩ := limitKey_of_valid hvalid
  obtain ⟨levels, hlevels, bound, hmatch⟩ := inv.matchOrder hqty.le hlimit ts
  have hcan := inv.canFill_eq hlimit
  have hiff := inv.sweepOf_filled_iff hqty hrem limit ts
  refine ⟨_, _, _, _, hcan, ⟨bound, fun fuel hfuel => ⟨hmatch fuel hfuel, ?_⟩⟩, ?_, ?_,
    inv.nothingRests_swept hqty hlevels⟩
  · rw [submit_of_valid hvalid, submitValidated, hkind]
    simp only [hcan, hmatch fuel hfuel, bind, Except.bind, pure, Except.pure]
    by_cases henough :
      order.remaining * (1 - 1 / 1000000000) ≤ inReach book order.side limit
    · simp only [henough, decide_true, Bool.not_true, Bool.false_eq_true,
        if_false, if_true]
    · simp only [henough, decide_false, Bool.not_false, Bool.false_eq_true,
        if_false, if_true]
  · rw [decide_eq_true_eq, hiff]
  · rw [decide_eq_true_eq, ← hiff]
    exact inv.sweepOf_whole hqty hrem

/-- Two asks of one each, and an order for two and a billionth: the check passes by its
tolerance, and the matcher calls the order filled by its own. -/
theorem fok_all_or_nothing_dust :
    let asks : List (Order ℚ) :=
      [Order.limit 1 ['X'] .sell 100 1 0, Order.limit 2 ['X'] .sell 101 1 0]
    let order : Order ℚ := Order.fok 3 ['X'] .buy 101 (2000000001 / 1000000000) 0
    ∃ book past, BookRun ['X'] book asks past ∧ canFill book order = .ok true ∧
      ∃ bound book' events, (∀ fuel, bound < fuel →
          submit fuel book order 0 = .ok (book', events)) ∧
        order.qty * (1 - 1 / 1000000000) ≤ sideQty .buy events ∧
        sideQty .buy events ≤ order.qty ∧
        NothingRests .buy book book' := by
  intro asks order
  obtain ⟨book, past, hrun, hp⟩ := exists_bookRun ['X'] 9 asks
    (by
      intro o ho
      simp only [asks, List.mem_cons, List.not_mem_nil, or_false] at ho
      rcases ho with rfl | rfl
      · exact .limit _ _ _ _ _ _
      · exact .limit _ _ _ _ _ _)
    (fun r => (canFill r.1 order).toOption.any id) (by decide +kernel)
  obtain ⟨fillable, hfillable, htrue⟩ := exists_ok hp
  obtain rfl : fillable = true := htrue
  obtain ⟨_, book', _, events, hcan, ⟨bound, hcall⟩, _, hwhole, hrests⟩ :=
    fok_all_or_nothing hrun order rfl rfl (by decide +kernel) 0
  obtain rfl := Except.ok.inj (hfillable.symm.trans hcan)
  obtain ⟨_, hlow, hhigh⟩ := hwhole rfl
  exact ⟨book, past, hrun, hfillable, bound, book', events,
    fun fuel hfuel => (hcall fuel hfuel).2, hlow, hhigh, hrests⟩

end Candlestore.Matching
