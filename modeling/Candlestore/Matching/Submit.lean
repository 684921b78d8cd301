import Mathlib.Tactic.Ring
import Candlestore.Matching.BookInv

/-!
# What a submission does

A valid order is matched by one sweep over the opposite side; then it is
filled, rests, or is cancelled, and a fill-or-kill order is matched only when
the sweep is going to fill it.  `Submitted` lists these outcomes.  Every
submission of a constructor-built order to a book in order ends in one of them,
and each of them keeps `BookInv`.
-/

namespace Candlestore.Matching

open Candlestore Lib

/-! ## Validation -/

/-- A valid order has a positive quantity and a key for its price, if it has
one. -/
theorem limitKey_of_valid {order : Order ℚ} (h : validateOrder order = .ok ()) :
    0 < order.qty ∧ ∃ limit, limitKey order = .ok limit ∧
      (∀ p, order.price = some p → ∃ key, limit = some key ∧
        tryPriceKey p = .ok key) := by
  rw [validateOrder] at h
  split at h
  · exact absurd h (by simp)
  · next hqty =>
      have hpos : 0 < order.qty := by
        simpa [F64.isFinite, F64.lit] using hqty
      refine ⟨hpos, ?_⟩
      rw [limitKey]
      cases hp : order.price with
      | none => exact ⟨none, rfl, fun p hp => absurd hp (by simp)⟩
      | some p =>
          cases hkey : tryPriceKey p with
          | error e => simp [hp, hkey, bind, Except.bind] at h
          | ok key =>
              refine ⟨some key, ?_, ?_⟩
              · simp [priceKey, hkey, bind, Except.bind, pure, Except.pure]
              · intro q hq
                obtain rfl := Option.some.inj hq
                exact ⟨key, rfl, hkey⟩

/-! ## The taker after a sweep -/

theorem fillLevel_original (key : Nat) (ts : Int) (queue : List (Order ℚ))
    (taker : Order ℚ) :
    (fillLevel key ts taker queue).taker.original = taker.original := by
  induction queue generalizing taker with
  | nil => rfl
  | cons maker rest ih =>
      rw [fillLevel]
      split
      · rfl
      · dsimp only
        split
        · exact ih (taker.debit (tradeQty taker maker))
        · rfl

/-- Matching changes nothing of the taker but what remains of it. -/
theorem sweep_original (side : Side) (limit : Option Nat) (ts : Int) (l : Ladder ℚ)
    (taker : Order ℚ) :
    (sweep side limit ts taker l).taker.original = taker.original := by
  induction l generalizing taker with
  | nil => rfl
  | cons e l ih =>
      rw [sweep]
      split
      · rfl
      · dsimp only
        split
        · exact fillLevel_original _ ts _ taker
        · exact (ih _).trans (fillLevel_original _ ts _ taker)

/-! ## Matching a valid order -/

theorem ladder_injective {F : Type} (side : Side) {l₁ l₂ : Levels F}
    (h : ladder side l₁ = ladder side l₂) : l₁ = l₂ := by
  have hentries : l₁.entries = l₂.entries := by
    cases side with
    | buy => exact h
    | sell => exact List.reverse_injective h
  cases l₁
  cases l₂
  cases hentries
  rfl

/-- The sweep of an order over the side it trades with. -/
def sweepOf (book : OrderBook ℚ) (order : Order ℚ) (limit : Option Nat) (ts : Int) :
    Matched ℚ (Ladder ℚ) :=
  sweep order.side limit ts order (ladder order.side (book.makers order.side))

/-- With fuel for the resting orders, matching is the sweep, if every order it
meets has a quantity that is not negative. -/
theorem matchOrder_eq_sweepOf {book : OrderBook ℚ} {order : Order ℚ} {limit : Option Nat}
    (hmakers : ∀ e ∈ ladder order.side (book.makers order.side), ∀ m ∈ e.2, 0 ≤ m.qty)
    (hqty : 0 ≤ order.qty) (hlimit : limitKey order = .ok limit) (ts : Int) :
    ∃ levels, ladder order.side levels = (sweepOf book order limit ts).left ∧
      ∃ bound, ∀ fuel, bound < fuel → matchOrder fuel book order [] ts =
        .ok (book.setMakers order.side levels, (sweepOf book order limit ts).taker,
          (sweepOf book order limit ts).events) := by
  let l := ladder order.side (book.makers order.side)
  let bound := l.length + (l.map fun e => e.2.length).sum
  have hinner : ∀ fuel, bound < fuel → ∀ e ∈ l, e.2.length < fuel := by
    intro fuel hfuel e he
    have := List.single_le_sum (fun x _ => Nat.zero_le x) e.2.length
      (List.mem_map_of_mem (f := fun e : Nat × List (Order ℚ) => e.2.length) he)
    omega
  have hloop : ∀ fuel, bound < fuel → ∃ levels,
      ladder order.side levels = (sweepOf book order limit ts).left ∧
      matchOrder fuel book order [] ts =
        .ok (book.setMakers order.side levels, (sweepOf book order limit ts).taker,
          (sweepOf book order limit ts).events) := by
    intro fuel hfuel
    obtain ⟨levels, hlevels, heq⟩ :=
      matchLoop_eq order.side limit ts fuel l book order [] fuel rfl rfl
      hqty hmakers (hinner fuel hfuel) (by omega)
    exact ⟨levels, hlevels, (matchOrder_eq_matchLoop hlimit).trans heq⟩
  obtain ⟨levels, hlevels, _⟩ := hloop (bound + 1) (Nat.lt_succ_self bound)
  refine ⟨levels, hlevels, bound, ?_⟩
  intro fuel hfuel
  obtain ⟨levels', hlevels', heq⟩ := hloop fuel hfuel
  rw [heq, ladder_injective order.side (hlevels'.trans hlevels.symm)]

section Matching

variable {history : List (Order ℚ)} {book : OrderBook ℚ} (inv : BookInv history book)
include inv

theorem BookInv.qty_nonneg (side : Side) :
    ∀ e ∈ ladder side (book.makers side), ∀ m ∈ e.2, 0 ≤ m.qty :=
  fun e he m hm => ((inv.makers side e he).resting m hm).qty_pos.le

theorem BookInv.queue_resting (side : Side) :
    ∀ e ∈ queueOf (ladder side (book.makers side)), Resting side.opposite e.1 e.2 := by
  rintro ⟨key, o⟩ he
  obtain ⟨queue, hqueue, ho⟩ := (mem_queueOf _ key o).1 he
  exact (inv.makers side _ hqueue).resting o ho

/-- With fuel for the resting orders, matching is the sweep. -/
theorem BookInv.matchOrder {order : Order ℚ} {limit : Option Nat} (hqty : 0 ≤ order.qty)
    (hlimit : limitKey order = .ok limit) (ts : Int) :
    ∃ levels, ladder order.side levels = (sweepOf book order limit ts).left ∧
      ∃ bound, ∀ fuel, bound < fuel → matchOrder fuel book order [] ts =
        .ok (book.setMakers order.side levels, (sweepOf book order limit ts).taker,
          (sweepOf book order limit ts).events) :=
  matchOrder_eq_sweepOf (inv.qty_nonneg order.side) hqty hlimit ts

end Matching

/-! ## Fill or kill -/

theorem queueOf_map_remaining (l : Ladder ℚ) :
    (queueOf l).map (fun e => e.2.remaining) =
      (l.flatMap Prod.snd).map Order.remaining := by
  simp only [queueOf, List.map_flatMap, List.map_map]
  rfl

private theorem available_eq (side : Side) (key : Nat) (levels : Levels ℚ)
    (reach : Nat → Bool) (hreach : ∀ k, reach k = !outOfReach side (some key) k) :
    available levels reach =
      ((queueOf (reachable side (some key) (ladder side levels))).map
        fun e => e.2.remaining).sum := by
  have hfilter : levels.entries.filter (fun e => reach e.1) =
      reachable side (some key) levels.entries :=
    List.filter_congr fun e _ => hreach e.1
  have hsum : ∀ l : List ℚ, l.foldl (· + ·) (F64.lit 0) = l.sum :=
    fun l => List.sum_eq_foldl.symm
  rw [available, hfilter, hsum, queueOf_map_remaining]
  cases side with
  | buy => rfl
  | sell =>
      refine List.Perm.sum_eq (List.Perm.map _ (List.Perm.flatMap_right _ ?_))
      exact (List.reverse_perm levels.entries).symm.filter _

/-- The quantity `can_fill` adds up is that of the reachable makers. -/
theorem availableTo_eq (book : OrderBook ℚ) (side : Side) (key : Nat) :
    availableTo book side (some key) =
      ((queueOf (reachable side (some key) (ladder side (book.makers side)))).map
        fun e => e.2.remaining).sum := by
  cases side with
  | buy =>
      refine available_eq .buy key book.asks (fun k => decide (k ≤ key)) fun k => ?_
      simp only [outOfReach, beyond, Option.map_some, Option.getD_some, ← decide_not,
        not_lt]
  | sell =>
      refine available_eq .sell key book.bids (fun k => decide (key ≤ k)) fun k => ?_
      simp only [outOfReach, beyond, Option.map_some, Option.getD_some, ← decide_not,
        not_lt]

/-- The pre-check of a fill-or-kill order compares it with the reachable
quantity. -/
theorem canFill_eq (book : OrderBook ℚ) {order : Order ℚ} {key : Nat}
    (hlimit : limitKey order = .ok (some key)) :
    canFill book order = .ok (decide (order.remaining * (1 - 1 / 1000000000) ≤
      ((queueOf (reachable order.side (some key)
        (ladder order.side (book.makers order.side)))).map
        fun e => e.2.remaining).sum)) := by
  rw [← availableTo_eq]
  simp only [canFill, hlimit, bind, Except.bind, pure, Except.pure]
  rfl

/-- The pass over the queue that a sweep is. -/
theorem sweepOf_eq_priorityPass {book : OrderBook ℚ} {order : Order ℚ}
    (hmakers : ∀ e ∈ ladder order.side (book.makers order.side), ∀ m ∈ e.2, 0 ≤ m.qty)
    (hqty : 0 ≤ order.qty) (limit : Option Nat) (ts : Int) :
    let l := ladder order.side (book.makers order.side)
    let m := priorityPass ts order (queueOf (reachable order.side limit l))
    (sweepOf book order limit ts).events = m.events ∧
      (sweepOf book order limit ts).taker = m.taker ∧
      queueOf (sweepOf book order limit ts).left =
        m.left ++ queueOf (unreachable order.side limit l) :=
  sweep_eq_priorityPass order.side limit ts _ order hqty hmakers
    (ladder_reach order.side limit _)

theorem BookInv.sweepOf_eq {history : List (Order ℚ)} {book : OrderBook ℚ}
    (inv : BookInv history book) {order : Order ℚ} (hqty : 0 ≤ order.qty)
    (limit : Option Nat) (ts : Int) :
    let l := ladder order.side (book.makers order.side)
    let m := priorityPass ts order (queueOf (reachable order.side limit l))
    (sweepOf book order limit ts).events = m.events ∧
      (sweepOf book order limit ts).taker = m.taker ∧
      queueOf (sweepOf book order limit ts).left =
        m.left ++ queueOf (unreachable order.side limit l) :=
  sweepOf_eq_priorityPass (inv.qty_nonneg order.side) hqty limit ts

/-- Reachable makers are resting orders. -/
theorem BookInv.reachable_resting {history : List (Order ℚ)} {book : OrderBook ℚ}
    (inv : BookInv history book) (side : Side) (limit : Option Nat) :
    ∀ e ∈ queueOf (reachable side limit (ladder side (book.makers side))),
      Resting side.opposite e.1 e.2 := by
  rintro ⟨key, o⟩ he
  obtain ⟨queue, hqueue, ho⟩ := (mem_queueOf _ key o).1 he
  exact (inv.makers side _ (List.mem_filter.1 hqueue).1).resting o ho

/-- A sweep with enough in reach fills a whole order. -/
theorem BookInv.sweepOf_filled {history : List (Order ℚ)} {book : OrderBook ℚ}
    (inv : BookInv history book) {order : Order ℚ} (hqty : 0 ≤ order.qty)
    (hrem : order.remaining = order.qty) {limit : Option Nat}
    (henough : order.remaining * (1 - 1 / 1000000000) ≤
      ((queueOf (reachable order.side limit
        (ladder order.side (book.makers order.side)))).map
        fun e => e.2.remaining).sum) (ts : Int) :
    (sweepOf book order limit ts).taker.isFilled = true := by
  by_contra hhungry
  obtain ⟨_, htaker, _⟩ := inv.sweepOf_eq hqty limit ts
  have hq : (sweepOf book order limit ts).taker.qty = order.qty :=
    (congrArg Order.qty (sweep_original order.side limit ts _ order) :)
  rw [Bool.not_eq_true] at hhungry
  -- a taker that is still hungry has taken everything in reach
  have hrest := priorityPass_hungry ts _ order hqty
    (fun e he => (inv.reachable_resting order.side limit e he).qty_pos.le)
    (htaker ▸ hhungry)
  rw [← htaker] at hrest
  rw [← Bool.not_eq_true, isFilled_iff, hq, hrest, not_le] at hhungry
  rw [hrem] at henough hhungry
  linarith

/-- An order that passes the pre-check is filled by the sweep. -/
theorem BookInv.filled_of_canFill {history : List (Order ℚ)} {book : OrderBook ℚ}
    (inv : BookInv history book) {order : Order ℚ} (hqty : 0 ≤ order.qty)
    (hrem : order.remaining = order.qty) {key : Nat}
    (hlimit : limitKey order = .ok (some key)) (hcan : canFill book order = .ok true)
    (ts : Int) : (sweepOf book order (some key) ts).taker.isFilled = true := by
  rw [canFill_eq book hlimit, Except.ok.injEq, decide_eq_true_eq] at hcan
  exact inv.sweepOf_filled hqty hrem hcan ts

/-! ## The outcomes of a submission -/

/-- An order put at the back of its level. -/
def restAt (book : OrderBook ℚ) (key : Nat) (order : Order ℚ) : OrderBook ℚ :=
  book.setMakers order.side.opposite
    (pushBack (book.makers order.side.opposite) key order)

/-- What submitting a valid order can do to the book, and the events it emits. -/
inductive Submitted (book : OrderBook ℚ) (order : Order ℚ) (limit : Option Nat)
    (ts : Int) : OrderBook ℚ → List (TradeEvent ℚ) → Prop where
  | killed : order.kind = .fok →
      Submitted book order limit ts book [.cancel order.id .fokNoFill]
  | filled (levels : Levels ℚ) :
      ladder order.side levels = (sweepOf book order limit ts).left →
      (sweepOf book order limit ts).taker.isFilled = true →
      Submitted book order limit ts (book.setMakers order.side levels)
        (sweepOf book order limit ts).events
  | rested (levels : Levels ℚ) (key : Nat) (p : ℚ) :
      ladder order.side levels = (sweepOf book order limit ts).left →
      (sweepOf book order limit ts).taker.isFilled = false → order.kind = .limit →
      limit = some key → order.price = some p → tryPriceKey p = .ok key →
      Submitted book order limit ts
        (restAt (book.setMakers order.side levels) key
          (sweepOf book order limit ts).taker)
        (sweepOf book order limit ts).events
  | cancelled (levels : Levels ℚ) (reason : CancelReason) :
      ladder order.side levels = (sweepOf book order limit ts).left →
      (sweepOf book order limit ts).taker.isFilled = false →
      order.kind = .ioc ∨ order.kind = .market →
      Submitted book order limit ts (book.setMakers order.side levels)
        ((sweepOf book order limit ts).events ++ [.cancel order.id reason])

section Outcomes

variable {history : List (Order ℚ)} {book : OrderBook ℚ} {order : Order ℚ}
  {limit : Option Nat}

theorem sweepOf_original (book : OrderBook ℚ) (order : Order ℚ) (limit : Option Nat)
    (ts : Int) : (sweepOf book order limit ts).taker.original = order.original :=
  sweep_original order.side limit ts _ order

theorem rest_eq_restAt (book : OrderBook ℚ) {order : Order ℚ} {p : ℚ} {key : Nat}
    (hp : order.price = some p) (hkey : tryPriceKey p = .ok key) :
    rest book order = .ok (restAt book key order) := by
  cases hside : order.side with
  | buy =>
      simp [rest, hp, priceKey, hkey, hside, restAt, Side.opposite, OrderBook.setMakers,
        OrderBook.makers, bind, Except.bind, pure, Except.pure]
  | sell =>
      simp [rest, hp, priceKey, hkey, hside, restAt, Side.opposite, OrderBook.setMakers,
        OrderBook.makers, bind, Except.bind, pure, Except.pure]

/-- A fill-or-kill order is killed by the pre-check or filled by the sweep. -/
theorem BookInv.submitted_fok (inv : BookInv history book) (hqty : 0 ≤ order.qty)
    (hrem : order.remaining = order.qty) (hfok : order.kind = .fok) {key : Nat}
    (hlimit : limitKey order = .ok (some key)) {ts : Int} {levels : Levels ℚ}
    {bound : Nat} (hlevels : ladder order.side levels =
      (sweepOf book order (some key) ts).left)
    (hmatch : ∀ fuel, bound < fuel → Matching.matchOrder fuel book order [] ts =
      .ok (book.setMakers order.side levels, (sweepOf book order (some key) ts).taker,
        (sweepOf book order (some key) ts).events)) :
    ∃ book' events, Submitted book order (some key) ts book' events ∧
      ∀ fuel, bound < fuel → submitValidated fuel book order ts =
        .ok (book', events) := by
  have hcan := canFill_eq book hlimit
  cases hc : decide (order.remaining * (1 - 1 / 1000000000) ≤
      ((queueOf (reachable order.side (some key)
        (ladder order.side (book.makers order.side)))).map fun e =>
        e.2.remaining).sum) with
  | false =>
      refine ⟨_, _, .killed hfok, ?_⟩
      intro fuel _
      simp only [submitValidated, hfok, hcan, hc, bind, Except.bind]
      rfl
  | true =>
      rw [hc] at hcan
      refine ⟨_, _, .filled levels hlevels
        (inv.filled_of_canFill hqty hrem hlimit hcan ts), ?_⟩
      intro fuel hfuel
      simp only [submitValidated, hfok, hcan, hmatch fuel hfuel, bind, Except.bind]
      rfl

/-- What is left of a swept order that is not fill-or-kill rests or is cancelled. -/
theorem exists_settled {ts : Int} {levels : Levels ℚ} (hfok : order.kind ≠ .fok)
    (hbuilt : order.Built)
    (hprice : ∀ p, order.price = some p → ∃ key, limit = some key ∧
      tryPriceKey p = .ok key)
    (hlevels : ladder order.side levels = (sweepOf book order limit ts).left) :
    ∃ book' events, Submitted book order limit ts book' events ∧
      settle (book.setMakers order.side levels) (sweepOf book order limit ts).taker
        (sweepOf book order limit ts).events = .ok (book', events) := by
  have horig := sweepOf_original book order limit ts
  have hid : (sweepOf book order limit ts).taker.id = order.id :=
    (congrArg Order.id horig :)
  have hkind : (sweepOf book order limit ts).taker.kind = order.kind :=
    (congrArg Order.kind horig :)
  rw [settle, hkind, hid]
  cases hf : (sweepOf book order limit ts).taker.isFilled with
  | true => exact ⟨_, _, .filled levels hlevels hf, rfl⟩
  | false =>
      cases hk : order.kind with
      | fok => exact absurd hk hfok
      | ioc => exact ⟨_, _, .cancelled levels .iocRemainder hlevels hf (Or.inl hk), rfl⟩
      | market =>
          exact ⟨_, _, .cancelled levels .marketNoLiquidity hlevels hf (Or.inr hk), rfl⟩
      | limit =>
          obtain ⟨p, hp⟩ := hbuilt.price_ne_none (by rw [hk]; decide)
          obtain ⟨key, hkey, htry⟩ := hprice p hp
          have hprice' : (sweepOf book order limit ts).taker.price = some p :=
            (congrArg Order.price horig :).trans hp
          refine ⟨_, _, .rested levels key p hlevels hf hk hkey hp htry, ?_⟩
          simp only [rest_eq_restAt _ hprice' htry, bind, Except.bind, pure, Except.pure]
          rfl

/-- Every submission of a valid order ends in one of the outcomes. -/
theorem BookInv.submitValidated (inv : BookInv history book) (hbuilt : order.Built)
    (hvalid : validateOrder order = .ok ()) (ts : Int) :
    ∃ limit, limitKey order = .ok limit ∧ ∃ book' events,
      Submitted book order limit ts book' events ∧
      ∃ bound, ∀ fuel, bound < fuel →
        submitValidated fuel book order ts = .ok (book', events) := by
  obtain ⟨hqty, limit, hlimit, hprice⟩ := limitKey_of_valid hvalid
  refine ⟨limit, hlimit, ?_⟩
  obtain ⟨levels, hlevels, bound, hmatch⟩ := inv.matchOrder hqty.le hlimit ts
  by_cases hfok : order.kind = .fok
  · obtain ⟨p, hp⟩ := hbuilt.price_ne_none (by rw [hfok]; decide)
    obtain ⟨key, rfl, _⟩ := hprice p hp
    obtain ⟨book', events, hsub, hrun⟩ :=
      inv.submitted_fok hqty.le hbuilt.remaining_eq hfok hlimit hlevels hmatch
    exact ⟨book', events, hsub, bound, hrun⟩
  · obtain ⟨book', events, hsub, hsettle⟩ := exists_settled hfok hbuilt hprice hlevels
    refine ⟨book', events, hsub, bound, ?_⟩
    intro fuel hfuel
    rw [submitValidated_eq_settle hfok, hmatch fuel hfuel]
    exact hsettle

end Outcomes

/-! ## Every outcome keeps the invariant -/

section Keeps

variable {history : List (Order ℚ)} {book : OrderBook ℚ} {order : Order ℚ}
  {limit : Option Nat} {levels : Levels ℚ} {ts : Int}

/-- A book whose sides are in order, side by side. -/
theorem bookInv_of_sides (side : Side)
    (hmakers : ∀ e ∈ (book.makers side).entries, LevelInv history side.opposite e.1 e.2)
    (hown : ∀ e ∈ (book.makers side.opposite).entries, LevelInv history side e.1 e.2)
    (hcross : ∀ a ∈ (book.makers side).entries,
      ∀ b ∈ (book.makers side.opposite).entries,
      beyond side a.1 b.1 = true) : BookInv history book := by
  cases side with
  | buy =>
      refine ⟨hown, hmakers, ?_⟩
      intro b hb a ha
      simpa [beyond] using hcross a ha b hb
  | sell =>
      refine ⟨hmakers, hown, ?_⟩
      intro b hb a ha
      simpa [beyond] using hcross b hb a ha

theorem BookInv.own (inv : BookInv history book) (side : Side) :
    ∀ e ∈ (book.makers side.opposite).entries, LevelInv history side e.1 e.2 := by
  cases side with
  | buy => exact inv.bids
  | sell => exact inv.asks

theorem BookInv.beyond_of_mem (inv : BookInv history book) (side : Side) :
    ∀ a ∈ (book.makers side).entries, ∀ b ∈ (book.makers side.opposite).entries,
      beyond side a.1 b.1 = true := by
  intro a ha b hb
  cases side with
  | buy => simpa [beyond] using inv.uncrossed b hb a ha
  | sell => simpa [beyond] using inv.uncrossed a ha b hb

/-- What a sweep leaves of a side is in order and has no new key. -/
theorem BookInv.mem_swept (inv : BookInv history book) (hqty : 0 ≤ order.qty)
    (hlevels : ladder order.side levels = (sweepOf book order limit ts).left) :
    ∀ e ∈ levels.entries, LevelInv history order.side.opposite e.1 e.2 ∧
      ∃ queue, (e.1, queue) ∈ (book.makers order.side).entries := by
  intro e he
  rw [← mem_ladder order.side, hlevels] at he
  obtain ⟨hinv, queue, hq⟩ :=
    sweep_levelInv history order.side order.side.opposite limit ts _ order
    hqty (inv.makers order.side) e he
  exact ⟨hinv, queue, (mem_ladder order.side _ _).1 hq⟩

theorem BookInv.swept (inv : BookInv history book) (hqty : 0 ≤ order.qty)
    (hlevels : ladder order.side levels = (sweepOf book order limit ts).left) :
    BookInv history (book.setMakers order.side levels) := by
  refine bookInv_of_sides order.side ?_ ?_ ?_
  · rw [makers_setMakers]
    exact fun e he => (inv.mem_swept hqty hlevels e he).1
  · rw [makers_opposite_setMakers]
    exact inv.own order.side
  · rw [makers_setMakers, makers_opposite_setMakers]
    intro a ha b hb
    obtain ⟨queue, hq⟩ := (inv.mem_swept hqty hlevels a ha).2
    exact inv.beyond_of_mem order.side _ hq b hb

/-- The order that a hungry sweep leaves may rest at its key. -/
theorem BookInv.taker_resting (inv : BookInv history book) (hqty : 0 < order.qty)
    (hrem : order.remaining = order.qty) (hkind : order.kind = .limit) {p : ℚ}
    {key : Nat} (hp : order.price = some p) (hkey : tryPriceKey p = .ok key)
    (hhungry : (sweepOf book order limit ts).taker.isFilled = false) :
    Resting order.side key (sweepOf book order limit ts).taker := by
  have horig := sweepOf_original book order limit ts
  obtain ⟨_, htaker, _⟩ := inv.sweepOf_eq hqty.le limit ts
  have hle := (priorityPass_remaining ts _ order (by rw [hrem]; exact hqty.le)
    (fun e he => (inv.reachable_resting order.side limit e he).remaining_pos.le)).2
  rw [← htaker, hrem] at hle
  refine ⟨(congrArg Order.side horig :), (congrArg Order.kind horig :).trans hkind,
    ⟨p, (congrArg Order.price horig :).trans hp, hkey⟩, ?_, ?_⟩
  · rwa [← not_le, ← isFilled_iff, Bool.not_eq_true]
  · have hq : (sweepOf book order limit ts).taker.qty = order.qty :=
      (congrArg Order.qty horig :)
    rwa [hq]

theorem mem_pushBack {levels : Levels ℚ} {key : Nat} {o : Order ℚ}
    {e : Nat × List (Order ℚ)} (he : e ∈ (pushBack levels key o).entries) :
    e ∈ levels.entries ∨ e = (key, [o]) ∨ ∃ queue, (key, queue) ∈ levels.entries ∧
      e = (key, queue ++ [o]) := by
  rw [pushBack, SortedMap.mem_entries_insert] at he
  rcases he with rfl | ⟨he, _⟩
  · right
    cases hget : levels.get? key with
    | none => exact Or.inl rfl
    | some queue => exact Or.inr ⟨queue, (SortedMap.get?_eq_some _ _ _).1 hget, rfl⟩
  · exact Or.inl he

/-- Resting an order behind its level keeps the book in order, if the other
side is beyond its key. -/
theorem BookInv.restAt (inv : BookInv history book) {o : Order ℚ} {key : Nat}
    (horder : o.original = order) (hresting : Resting o.side key o)
    (hbeyond : ∀ a ∈ (book.makers o.side).entries, beyond o.side a.1 key = true) :
    BookInv (history ++ [order]) (restAt book key o) := by
  have hswap : (Matching.restAt book key o).makers o.side = book.makers o.side := by
    rw [Matching.restAt]
    cases o.side <;> rfl
  have hown : (Matching.restAt book key o).makers o.side.opposite =
      pushBack (book.makers o.side.opposite) key o := makers_setMakers _ _ _
  refine bookInv_of_sides o.side ?_ ?_ ?_
  · rw [hswap]
    intro e he
    exact (inv.makers o.side e ((mem_ladder _ _ _).2 he)).mono order
  · rw [hown]
    intro e he
    rcases mem_pushBack he with he | rfl | ⟨queue, hq, rfl⟩
    · exact (inv.own o.side e he).mono order
    · refine ⟨by simp, by simpa using hresting, ?_⟩
      rw [List.map_singleton, horder]
      exact List.sublist_append_right history [order]
    · have hlevel := inv.own o.side _ hq
      refine ⟨by simp, ?_, ?_⟩
      · intro x hx
        rcases List.mem_append.1 hx with hx | hx
        · exact hlevel.resting x hx
        · rw [List.mem_singleton] at hx
          exact hx ▸ hresting
      · rw [List.map_append, List.map_singleton, horder]
        exact hlevel.arrival.append (List.Sublist.refl _)
  · rw [hswap, hown]
    intro a ha b hb
    rcases mem_pushBack hb with hb | rfl | ⟨queue, _, rfl⟩
    · exact inv.beyond_of_mem o.side a ha b hb
    · exact hbeyond a ha
    · exact hbeyond a ha

/-- A submission of a valid order keeps the book in order. -/
theorem BookInv.submitted (inv : BookInv history book) (hbuilt : order.Built)
    (hqty : 0 < order.qty) {book' : OrderBook ℚ} {events : List (TradeEvent ℚ)}
    (hsub : Submitted book order limit ts book' events) :
    BookInv (history ++ [order]) book' := by
  cases hsub with
  | killed _ => exact inv.mono order
  | filled levels hlevels _ => exact (inv.swept hqty.le hlevels).mono order
  | cancelled levels reason hlevels _ _ => exact (inv.swept hqty.le hlevels).mono order
  | rested levels key p hlevels hhungry hkind hlimit hp hkey =>
      have horig := sweepOf_original book order limit ts
      have hside : (sweepOf book order limit ts).taker.side = order.side :=
        (congrArg Order.side horig :)
      refine (inv.swept hqty.le hlevels).restAt (horig.trans hbuilt.original_eq) ?_ ?_
      · rw [hside]
        exact inv.taker_resting hqty hbuilt.remaining_eq hkind hp hkey hhungry
      · rw [hside, makers_setMakers]
        intro a ha
        rw [← mem_ladder order.side, hlevels] at ha
        have hout := sweep_hungry order.side limit ts _ order
          (ladder_reach order.side limit _) hhungry a ha
        rw [hlimit] at hout
        exact hout

end Keeps

/-! ## Runs -/

/-- Runs of submissions of constructor-built orders, valid or not, with the
orders submitted and the events emitted so far. -/
inductive BookRun (symbol : Symbol) :
    OrderBook ℚ → List (Order ℚ) → List (TradeEvent ℚ) → Prop where
  | new : BookRun symbol (OrderBook.new symbol) [] []
  | submit {book book' : OrderBook ℚ} {history : List (Order ℚ)}
      {past events : List (TradeEvent ℚ)} (order : Order ℚ) (ts : Int) (fuel : Nat) :
      BookRun symbol book history past → order.Built →
      submit fuel book order ts = .ok (book', events) →
      BookRun symbol book' (history ++ [order]) (past ++ events)
  | accepted {book book' : OrderBook ℚ} {history : List (Order ℚ)}
      {past events : List (TradeEvent ℚ)} (order : Order ℚ) (ts : Int) (fuel : Nat) :
      BookRun symbol book history past → order.Built →
      trySubmit fuel book order ts = .ok (book', .ok events) →
      BookRun symbol book' (history ++ [order]) (past ++ events)
  | refused {book book' : OrderBook ℚ} {history : List (Order ℚ)}
      {past : List (TradeEvent ℚ)} (order : Order ℚ) (ts : Int) (fuel : Nat)
      (e : BookError ℚ) :
      BookRun symbol book history past → order.Built →
      trySubmit fuel book order ts = .ok (book', .error e) →
      BookRun symbol book' (history ++ [order]) past

section Runs

variable {history : List (Order ℚ)} {book book' : OrderBook ℚ} {order : Order ℚ}
  {ts : Int} {fuel : Nat}

/-- A returned submission of a valid order is one of the outcomes. -/
theorem BookInv.submitted_of_ok (inv : BookInv history book) (hbuilt : order.Built)
    (hvalid : validateOrder order = .ok ()) {events : List (TradeEvent ℚ)}
    (h : Matching.submitValidated fuel book order ts = .ok (book', events)) :
    ∃ limit, limitKey order = .ok limit ∧
      Submitted book order limit ts book' events := by
  obtain ⟨limit, hlimit, book'', events'', hsub, bound, hrun⟩ :=
    inv.submitValidated hbuilt hvalid ts
  have hmore := submitValidated_mono (le_max_left fuel (bound + 1)) h
  rw [hrun _ (by omega), Except.ok.injEq, Prod.mk.injEq] at hmore
  obtain ⟨rfl, rfl⟩ := hmore
  exact ⟨limit, hlimit, hsub⟩

/-- What a returned `submit` did. -/
theorem BookInv.submit_cases (inv : BookInv history book) (hbuilt : order.Built)
    {events : List (TradeEvent ℚ)}
    (h : Matching.submit fuel book order ts = .ok (book', events)) :
    (∃ e, validateOrder order = .error e ∧ book' = book ∧
        events = [.cancel order.id .invalidOrder]) ∨
      (validateOrder order = .ok () ∧ ∃ limit, limitKey order = .ok limit ∧
        Submitted book order limit ts book' events) := by
  rw [Matching.submit] at h
  cases hvalid : validateOrder order with
  | error e =>
      simp only [hvalid, Except.ok.injEq, Prod.mk.injEq] at h
      exact Or.inl ⟨e, rfl, h.1.symm, h.2.symm⟩
  | ok u =>
      simp only [hvalid] at h
      exact Or.inr ⟨rfl, inv.submitted_of_ok hbuilt hvalid h⟩

/-- What a returned `try_submit` did. -/
theorem BookInv.trySubmit_cases (inv : BookInv history book) (hbuilt : order.Built)
    {r : Except (BookError ℚ) (List (TradeEvent ℚ))}
    (h : trySubmit fuel book order ts = .ok (book', r)) :
    (∃ e, validateOrder order = .error e ∧ book' = book ∧ r = .error e) ∨
      (validateOrder order = .ok () ∧ ∃ limit events, limitKey order = .ok limit ∧
        r = .ok events ∧
        Submitted book order limit ts book' events) := by
  rw [trySubmit] at h
  cases hvalid : validateOrder order with
  | error e =>
      simp only [hvalid, Except.ok.injEq, Prod.mk.injEq] at h
      exact Or.inl ⟨e, rfl, h.1.symm, h.2.symm⟩
  | ok u =>
      simp only [hvalid] at h
      obtain ⟨⟨b, events⟩, hsub, hpure⟩ := (bind_eq_ok _ _ _).1 h
      simp only [pure, Except.pure, Except.ok.injEq, Prod.mk.injEq] at hpure
      obtain ⟨rfl, rfl⟩ := hpure
      obtain ⟨limit, hlimit, hout⟩ := inv.submitted_of_ok hbuilt hvalid hsub
      exact Or.inr ⟨rfl, limit, events, hlimit, rfl, hout⟩

theorem BookRun.bookInv {symbol : Symbol} {past : List (TradeEvent ℚ)}
    (hrun : BookRun symbol book history past) : BookInv history book := by
  induction hrun with
  | new => exact bookInv_new symbol
  | submit order ts fuel _ hbuilt hcall ih =>
      rcases ih.submit_cases hbuilt hcall with ⟨_, _, rfl, _⟩ | ⟨hvalid, _, _, hsub⟩
      · exact ih.mono order
      · exact ih.submitted hbuilt (limitKey_of_valid hvalid).1 hsub
  | accepted order ts fuel _ hbuilt hcall ih =>
      rcases ih.trySubmit_cases hbuilt hcall with ⟨_, _, rfl, _⟩ |
        ⟨hvalid, _, _, _, _, hsub⟩
      · exact ih.mono order
      · exact ih.submitted hbuilt (limitKey_of_valid hvalid).1 hsub
  | refused order ts fuel e _ hbuilt hcall ih =>
      rcases ih.trySubmit_cases hbuilt hcall with ⟨_, _, rfl, _⟩ |
        ⟨hvalid, _, _, _, _, hsub⟩
      · exact ih.mono order
      · exact ih.submitted hbuilt (limitKey_of_valid hvalid).1 hsub

theorem keyPrice_lt {a b : Nat} (h : a < b) : (keyPrice a : ℚ) < keyPrice b := by
  have hlt : ((a : ℚ)) / 100000000 < (b : ℚ) / 100000000 :=
    div_lt_div_of_pos_right (Nat.cast_lt.2 h) (by norm_num)
  exact hlt

/-- The gap between the best prices of an uncrossed book is positive. -/
theorem BookInv.spread_pos (inv : BookInv history book) {d : ℚ}
    (hd : book.spread = some d) : 0 < d := by
  rw [OrderBook.spread, Option.bind_eq_bind, Option.bind_eq_some_iff] at hd
  obtain ⟨ask, hask, hd⟩ := hd
  obtain ⟨bid, hbid, hd⟩ := Option.bind_eq_some_iff.1 hd
  obtain ⟨a, ha, rfl⟩ := Option.map_eq_some_iff.1 hask
  obtain ⟨b, hb, rfl⟩ := Option.map_eq_some_iff.1 hbid
  obtain ⟨qa, hqa⟩ := SortedMap.mem_of_firstKey? ha
  obtain ⟨qb, hqb⟩ := SortedMap.mem_of_lastKey? hb
  have hlt := keyPrice_lt (inv.uncrossed _ hqb _ hqa)
  rw [Option.pure_def, Option.some.injEq] at hd
  rw [← hd]
  exact sub_pos.2 hlt

/-- A submission to a reachable book returns. -/
theorem BookInv.submit_returns (inv : BookInv history book) (hbuilt : order.Built)
    (ts : Int) :
    ∃ bound book' events, ∀ fuel, bound < fuel →
      Matching.submit fuel book order ts = .ok (book', events) := by
  cases hvalid : validateOrder order with
  | error e =>
      refine ⟨0, book, [.cancel order.id .invalidOrder], fun fuel _ => ?_⟩
      rw [Matching.submit, hvalid]
  | ok u =>
      obtain ⟨_, _, book', events, _, bound, hrun⟩ :=
        inv.submitValidated hbuilt hvalid ts
      refine ⟨bound, book', events, fun fuel hfuel => ?_⟩
      rw [Matching.submit, hvalid]
      exact hrun fuel hfuel

/-- Submit the orders one after the other. -/
def submitAll (fuel : Nat) (book : OrderBook ℚ) (past : List (TradeEvent ℚ)) :
    List (Order ℚ) → Except Stop (OrderBook ℚ × List (TradeEvent ℚ))
  | [] => .ok (book, past)
  | order :: orders => do
      let (book', events) ← Matching.submit fuel book order order.ts
      submitAll fuel book' (past ++ events) orders

theorem BookRun.submitAll {symbol : Symbol} {past past' : List (TradeEvent ℚ)}
    (orders : List (Order ℚ)) (hbuilt : ∀ o ∈ orders, o.Built)
    (hrun : BookRun symbol book history past)
    (h : Matching.submitAll fuel book past orders = .ok (book', past')) :
    BookRun symbol book' (history ++ orders) past' := by
  induction orders generalizing book history past with
  | nil =>
      rw [Matching.submitAll, Except.ok.injEq, Prod.mk.injEq] at h
      obtain ⟨rfl, rfl⟩ := h
      rw [List.append_nil]
      exact hrun
  | cons order orders ih =>
      rw [Matching.submitAll] at h
      obtain ⟨⟨book₁, events⟩, hcall, hrest⟩ := (bind_eq_ok _ _ _).1 h
      have hnext := ih (fun o ho => hbuilt o (List.mem_cons_of_mem order ho))
        (hrun.submit order order.ts fuel (hbuilt order List.mem_cons_self) hcall) hrest
      rwa [List.append_assoc] at hnext

/-- Orders that can be submitted in turn are a run, with any property its end
has. -/
theorem exists_bookRun (symbol : Symbol) (fuel : Nat) (orders : List (Order ℚ))
    (hbuilt : ∀ o ∈ orders, o.Built) (p : OrderBook ℚ × List (TradeEvent ℚ) → Bool)
    (hp : (Matching.submitAll fuel (OrderBook.new symbol) [] orders).toOption.any p =
      true) : ∃ book past, BookRun symbol book orders past ∧ p (book, past) = true := by
  obtain ⟨⟨book, past⟩, hok, hsat⟩ := exists_ok hp
  refine ⟨book, past, ?_, hsat⟩
  have hrun := BookRun.new.submitAll orders hbuilt hok
  rwa [List.nil_append] at hrun

/-- After any run of submissions the book is uncrossed, has no empty level, and
every resting order is a limit order at its key, on its side, with more than
dust remaining and in arrival order.  Every further submission returns. -/
theorem book_in_order {symbol : Symbol} {past : List (TradeEvent ℚ)}
    (hrun : BookRun symbol book history past) :
    (∀ b ∈ book.bids.entries, ∀ a ∈ book.asks.entries, b.1 < a.1) ∧
      (∀ d, book.spread = some d → 0 < d) ∧
      (∀ e ∈ book.bids.entries, LevelInv history .buy e.1 e.2) ∧
      (∀ e ∈ book.asks.entries, LevelInv history .sell e.1 e.2) ∧
      (∀ (order : Order ℚ) (ts : Int), order.Built →
        ∃ bound book' events, ∀ fuel, bound < fuel →
          Matching.submit fuel book order ts = .ok (book', events)) :=
  ⟨hrun.bookInv.uncrossed, fun _ hd => hrun.bookInv.spread_pos hd, hrun.bookInv.bids,
    hrun.bookInv.asks, fun _ ts hbuilt => hrun.bookInv.submit_returns hbuilt ts⟩

/-- A bid at 99 and an ask at 101, after a trade at 101. -/
theorem book_in_order_after_trade :
    ∃ book history past, BookRun ['X'] book history past ∧ book.spread = some 2 ∧
      (0 : ℚ) < 2 ∧ ∀ b ∈ book.bids.entries, ∀ a ∈ book.asks.entries, b.1 < a.1 := by
  obtain ⟨book, past, hrun, hp⟩ := exists_bookRun ['X'] 9
    [Order.limit 1 ['X'] .buy 99 1 0, Order.limit 2 ['X'] .sell 101 2 0,
      Order.market 3 ['X'] .buy 1 0]
    (by
      intro o ho
      simp only [List.mem_cons, List.not_mem_nil, or_false] at ho
      rcases ho with rfl | rfl | rfl
      · exact .limit _ _ _ _ _ _
      · exact .limit _ _ _ _ _ _
      · exact .market _ _ _ _ _)
    (fun r => decide (r.1.spread = some 2)) (by decide +kernel)
  have hspread := of_decide_eq_true hp
  have horder := book_in_order hrun
  exact ⟨book, _, past, hrun, hspread, horder.2.1 2 hspread, horder.1⟩

end Runs

end Candlestore.Matching
