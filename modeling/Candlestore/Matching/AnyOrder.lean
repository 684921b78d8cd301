import Candlestore.Matching.Ledger

/-!
# Orders with arbitrary fields

Every field of `Order` is public, so a caller may submit values that no
constructor makes: a limit order without a price, or more remaining than the
quantity.  `validate_order` looks at `qty` and at the price if there is one,
and at nothing else.  This file follows such orders through the book.

Validation does keep two of the three panics out of reach.  The third, the
`expect` of `rest`, is reached by a limit order without a price that matching
leaves unfilled.  Whatever the carrier of the `f64` operations is, some
reachable book strands such an order exactly if it does not count as filled when
it comes; over exact rationals it is stranded exactly by the books whose
opposite side cannot fill it.

## Main results

* `submitValidated_panic_iff`: where a validated submission panics, for any
  carrier.
* `Settled`, `LiveBook.settled`: what a submission that returns does.
* `submit_panics_iff`: the exact condition on orders, for any carrier, and on
  reachable books, for exact rationals.
-/

namespace Candlestore.Matching

open Candlestore Lib

/-! ## Where the loops stop -/

section Errors

variable {F : Type}

theorem bind_eq_error {α β : Type} (x : Except Stop α) (f : α → Except Stop β)
    (e : Stop) :
    x >>= f = .error e ↔ x = .error e ∨ ∃ a, x = .ok a ∧ f a = .error e := by
  cases x with
  | error s => simp [bind, Except.bind]
  | ok a => simp [bind, Except.bind]

variable [F64 F]

/-- The loops of the matcher have no panic of their own. -/
theorem fillLoop_error (key : Nat) (ts : Int) {fuel : Nat} {taker : Order F}
    {level : List (Order F)} {events : List (TradeEvent F)} {e : Stop}
    (h : fillLoop key ts fuel taker level events = .error e) : e = .outOfFuel := by
  induction fuel generalizing taker level events with
  | zero => exact (Except.error.inj h).symm
  | succ fuel ih =>
      cases level with
      | nil =>
          rw [fillLoop, ite_self] at h
          cases h
      | cons maker rest =>
          rw [fillLoop] at h
          split at h
          · cases h
          · exact ih h

theorem fillAt_error {fuel : Nat} {book : OrderBook F} {key : Nat} {taker : Order F}
    {events : List (TradeEvent F)} {ts : Int} {e : Stop}
    (h : fillAt fuel book key taker events ts = .error e) : e = .outOfFuel := by
  rw [fillAt] at h
  split at h
  · cases h
  · rcases (bind_eq_error _ _ _).1 h with hloop | ⟨a, _, hpure⟩
    · exact fillLoop_error key ts hloop
    · cases hpure

theorem matchLoop_error (side : Side) (limit : Option Nat) (ts : Int) {inner fuel : Nat}
    {book : OrderBook F} {order : Order F} {events : List (TradeEvent F)} {e : Stop}
    (h : matchLoop side limit ts inner fuel book order events = .error e) :
    e = .outOfFuel := by
  induction fuel generalizing book order events with
  | zero => exact (Except.error.inj h).symm
  | succ fuel ih =>
      rw [matchLoop] at h
      split at h
      · cases h
      · split at h
        · cases h
        · rcases (bind_eq_error _ _ _).1 h with
            hfill | ⟨⟨book', order', events'⟩, _, hrest⟩
          · exact fillAt_error hfill
          · dsimp only at hrest
            split at hrest
            · cases hrest
            · exact ih hrest

theorem fillLoop_original (key : Nat) (ts : Int) {fuel : Nat} {taker taker' : Order F}
    {level level' : List (Order F)} {events events' : List (TradeEvent F)}
    (h : fillLoop key ts fuel taker level events = .ok (taker', level', events')) :
    taker'.original = taker.original := by
  induction fuel generalizing taker level events with
  | zero => cases h
  | succ fuel ih =>
      cases level with
      | nil =>
          rw [fillLoop, ite_self, Except.ok.injEq, Prod.mk.injEq] at h
          rw [h.1]
      | cons maker rest =>
          rw [fillLoop] at h
          split at h
          · rw [Except.ok.injEq, Prod.mk.injEq] at h
            rw [h.1]
          · have hrest : taker'.original =
              (taker.debit (tradeQty taker maker)).original := ih h
            exact hrest

theorem matchLoop_original (side : Side) (limit : Option Nat) (ts : Int)
    {inner fuel : Nat} {book book' : OrderBook F} {order order' : Order F}
    {events events' : List (TradeEvent F)}
    (h : matchLoop side limit ts inner fuel book order events =
      .ok (book', order', events')) : order'.original = order.original := by
  induction fuel generalizing book order events with
  | zero => cases h
  | succ fuel ih =>
      have hself : ∀ {b : OrderBook F} {ev : List (TradeEvent F)},
          Except.ok (b, order, ev) =
            (Except.ok (book', order', events') : Except Stop _) →
          order'.original = order.original := by
        intro b ev heq
        rw [Except.ok.injEq, Prod.mk.injEq, Prod.mk.injEq] at heq
        rw [heq.2.1]
      rw [matchLoop] at h
      split at h
      · exact hself h
      · split at h
        · exact hself h
        · obtain ⟨⟨book₁, order₁, events₁⟩, hfill, hrest⟩ := (bind_eq_ok _ _ _).1 h
          have hround : order₁.original = order.original := by
            rw [fillAt] at hfill
            split at hfill
            · rw [Except.ok.injEq, Prod.mk.injEq, Prod.mk.injEq] at hfill
              rw [hfill.2.1]
            · obtain ⟨⟨t, l, ev⟩, hloop, hpure⟩ := (bind_eq_ok _ _ _).1 hfill
              simp only [pure, Except.pure, Except.ok.injEq, Prod.mk.injEq] at hpure
              rw [← hpure.2.1]
              exact fillLoop_original _ ts hloop
          dsimp only at hrest
          split at hrest
          · simp only [pure, Except.pure, Except.ok.injEq, Prod.mk.injEq] at hrest
            rw [← hrest.2.1, hround]
          · rw [ih hrest, hround]

/-- The price of a validated order has a key, so `price_key` does not panic on
it. -/
theorem priceKey_of_valid {order : Order F} (h : validateOrder order = .ok ()) {p : F}
    (hp : order.price = some p) :
    ∃ key, tryPriceKey p = .ok key ∧ priceKey p = .ok key := by
  rw [validateOrder] at h
  split at h
  · cases h
  · cases hkey : tryPriceKey p with
    | error e => simp [hp, hkey, bind, Except.bind] at h
    | ok key => exact ⟨key, rfl, by rw [priceKey, hkey]⟩

theorem exists_limitKey {order : Order F} (h : validateOrder order = .ok ()) :
    ∃ limit, limitKey order = .ok limit := by
  rw [limitKey]
  cases hp : order.price with
  | none => exact ⟨none, rfl⟩
  | some p =>
      obtain ⟨key, _, hkey⟩ := priceKey_of_valid h hp
      exact ⟨some key, by simp only [hkey, bind, Except.bind, pure, Except.pure]⟩

/-- Resting panics on a missing price and on nothing else, if a price that is
there has a key. -/
theorem rest_error_iff {book : OrderBook F} {order : Order F} {stop : Stop}
    (hkey : ∀ p, order.price = some p → ∃ key, priceKey p = .ok key) :
    rest book order = .error stop ↔ stop = .panic .limitNeedsPrice ∧
      order.price = none := by
  cases hp : order.price with
  | none =>
      simp only [rest, hp, Except.error.injEq, and_true]
      exact eq_comm
  | some p =>
      obtain ⟨key, hkey⟩ := hkey p hp
      refine iff_of_false ?_ (fun h => by cases h.2)
      intro h
      simp only [rest, hp, hkey] at h
      cases hs : order.side <;> simp [hs, bind, Except.bind, pure, Except.pure] at h

/-- Settling stops where resting an unfilled limit order does. -/
theorem settle_error_iff {book : OrderBook F} {order : Order F}
    {events : List (TradeEvent F)} {stop : Stop} (hfok : order.kind ≠ .fok) :
    settle book order events = .error stop ↔
      order.isFilled = false ∧ order.kind = .limit ∧ rest book order = .error stop := by
  cases hfilled : order.isFilled with
  | true => simp [settle, hfilled]
  | false =>
      cases hk : order.kind with
      | fok => exact absurd hk hfok
      | ioc | market => simp [settle, hfilled, hk]
      | limit =>
          simp only [settle, hfilled, hk, true_and, Bool.false_eq_true, if_false]
          rw [bind_eq_error]
          constructor
          · rintro (hrest | ⟨_, _, hpure⟩)
            · exact hrest
            · cases hpure
          · exact Or.inl

theorem fillAt_filled {fuel : Nat} {book book' : OrderBook F} {key : Nat}
    {taker taker' : Order F} {events events' : List (TradeEvent F)} {ts : Int}
    (hf : taker.isFilled = true)
    (h : fillAt fuel book key taker events ts = .ok (book', taker', events')) :
    taker' = taker := by
  rw [fillAt] at h
  split at h
  · cases h
    rfl
  · obtain ⟨⟨t, level, ev⟩, hloop, hpure⟩ := (bind_eq_ok _ _ _).1 h
    cases hpure
    cases fuel with
    | zero => cases hloop
    | succ fuel =>
        simp only [fillLoop, hf, if_true] at hloop
        cases hloop
        rfl

/-- A taker that counts as filled comes out of the matcher as it went in. -/
theorem matchLoop_filled (side : Side) (limit : Option Nat) (ts : Int) {inner fuel : Nat}
    {book book' : OrderBook F} {order order' : Order F}
    {events events' : List (TradeEvent F)} (hf : order.isFilled = true)
    (h : matchLoop side limit ts inner fuel book order events =
      .ok (book', order', events')) : order' = order := by
  cases fuel with
  | zero => cases h
  | succ fuel =>
      rw [matchLoop] at h
      split at h
      · cases h
        rfl
      · split at h
        · cases h
          rfl
        · obtain ⟨⟨book₁, order₁, events₁⟩, hfill, hrest⟩ := (bind_eq_ok _ _ _).1 h
          obtain rfl := fillAt_filled hf hfill
          dsimp only at hrest
          rw [if_pos hf] at hrest
          cases hrest
          rfl

section Matched

variable {fuel : Nat} {book : OrderBook F} {order : Order F} {ts : Int}

/-- Matching a validated order may run out of fuel but does not panic. -/
theorem matchOrder_ne_panic (hvalid : validateOrder order = .ok ()) (p : Panic) :
    matchOrder fuel book order [] ts ≠ .error (.panic p) := by
  obtain ⟨limit, hlimit⟩ := exists_limitKey hvalid
  intro h
  rw [matchOrder_eq_matchLoop hlimit] at h
  cases matchLoop_error _ _ ts h

theorem matchOrder_original (hvalid : validateOrder order = .ok ()) {book' : OrderBook F}
    {taker : Order F} {events : List (TradeEvent F)}
    (h : matchOrder fuel book order [] ts = .ok (book', taker, events)) :
    taker.original = order.original := by
  obtain ⟨limit, hlimit⟩ := exists_limitKey hvalid
  rw [matchOrder_eq_matchLoop hlimit] at h
  exact matchLoop_original _ _ ts h

theorem submitValidated_fok_ne_panic (hvalid : validateOrder order = .ok ())
    (hfok : order.kind = .fok) (p : Panic) :
    submitValidated fuel book order ts ≠ .error (.panic p) := by
  obtain ⟨limit, hlimit⟩ := exists_limitKey hvalid
  intro h
  simp only [submitValidated, hfok] at h
  rcases (bind_eq_error _ _ _).1 h with hcan | ⟨fillable, _, hrest⟩
  · simp [canFill, hlimit, bind, Except.bind, pure, Except.pure] at hcan
  · split at hrest
    · cases hrest
    · rcases (bind_eq_error _ _ _).1 hrest with hmatch | ⟨_, _, hpure⟩
      · exact matchOrder_ne_panic hvalid p hmatch
      · cases hpure

/-- The only panic of a validated submission is the missing price of a limit
order that matching did not fill. -/
theorem submitValidated_panic_iff {p : Panic} (hvalid : validateOrder order = .ok ()) :
    submitValidated fuel book order ts = .error (.panic p) ↔
      p = .limitNeedsPrice ∧ order.kind = .limit ∧ order.price = none ∧
        ∃ book' taker events, matchOrder fuel book order [] ts =
          .ok (book', taker, events) ∧
          taker.isFilled = false := by
  by_cases hfok : order.kind = .fok
  · exact iff_of_false (submitValidated_fok_ne_panic hvalid hfok p) (by simp [hfok])
  · -- The taker that is settled has the kind and the price of the order.
    have hsettle : ∀ {book' taker events},
        matchOrder fuel book order [] ts = .ok (book', taker, events) →
        (settle book' taker events = .error (.panic p) ↔
          taker.isFilled = false ∧ order.kind = .limit ∧ p = .limitNeedsPrice ∧
            order.price = none) := by
      intro book' taker events h
      have horig := matchOrder_original hvalid h
      have hkind : taker.kind = order.kind := (congrArg Order.kind horig :)
      have hprice : taker.price = order.price := (congrArg Order.price horig :)
      rw [settle_error_iff (hkind ▸ hfok), hkind, rest_error_iff, hprice,
        Stop.panic.injEq]
      intro q hq
      obtain ⟨key, _, hkey⟩ := priceKey_of_valid hvalid (hprice ▸ hq)
      exact ⟨key, hkey⟩
    rw [submitValidated_eq_settle hfok, bind_eq_error]
    constructor
    · rintro (h | ⟨⟨book', taker, events⟩, hmatch, h⟩)
      · exact absurd h (matchOrder_ne_panic hvalid p)
      · obtain ⟨hhungry, hk, hpanic, hp⟩ := (hsettle hmatch).1 h
        exact ⟨hpanic, hk, hp, book', taker, events, hmatch, hhungry⟩
    · rintro ⟨hpanic, hk, hp, book', taker, events, hmatch, hhungry⟩
      exact Or.inr ⟨_, hmatch, (hsettle hmatch).2 ⟨hhungry, hk, hpanic, hp⟩⟩

end Matched

end Errors

/-! ## Books of live orders -/

/-- Positive quantity and more than dust of it remaining. -/
structure Live (o : Order ℚ) : Prop where
  qty_pos : 0 < o.qty
  hungry : o.isFilled = false

theorem Live.remaining_pos {o : Order ℚ} (h : Live o) : 0 < o.remaining := by
  have hq := h.qty_pos
  have hrem := h.hungry
  rw [← Bool.not_eq_true, isFilled_iff, not_le] at hrem
  linarith

/-- Every resting order is live. -/
def LiveBook (book : OrderBook ℚ) : Prop :=
  ∀ side, ∀ e ∈ restingQueue book side, Live e.2

theorem liveBook_new (symbol : Symbol) : LiveBook (OrderBook.new symbol) := by
  intro side e he
  cases side <;> exact absurd he List.not_mem_nil

/-- What a pass leaves of the makers has every property that a trade keeps. -/
theorem priorityPass_left_of {P : Order ℚ → Prop} (ts : Int)
    (hdebit : ∀ m x, P m → (m.debit x).isFilled = false → P (m.debit x))
    (q : List (Nat × Order ℚ)) (taker : Order ℚ) (hq : ∀ e ∈ q, P e.2) :
    ∀ e ∈ (priorityPass ts taker q).left, P e.2 := by
  have hpass := pass_priorityPass ts taker q
  generalize priorityPass ts taker q = m at hpass ⊢
  induction hpass with
  | stop _ => exact hq
  | last _ hm =>
      intro e he
      rcases List.mem_cons.1 he with rfl | he
      · exact hdebit _ _ (hq _ List.mem_cons_self) hm
      · exact hq e (List.mem_cons_of_mem _ he)
  | used _ _ _ ih => exact ih fun e he => hq e (List.mem_cons_of_mem _ he)

theorem Live.debit {m : Order ℚ} (h : Live m) {x : ℚ}
    (hf : (m.debit x).isFilled = false) : Live (m.debit x) :=
  ⟨h.qty_pos, hf⟩

section LiveBook

variable {book : OrderBook ℚ} (live : LiveBook book) {order : Order ℚ}
include live

theorem LiveBook.qty_nonneg (side : Side) :
    ∀ e ∈ ladder side (book.makers side), ∀ m ∈ e.2, 0 ≤ m.qty := by
  rintro ⟨key, queue⟩ he m hm
  exact (live side (key, m) ((mem_queueOf _ key m).2 ⟨queue, he, hm⟩)).qty_pos.le

/-- Matching that returns did the sweep. -/
theorem LiveBook.matchOrder_of_ok {limit : Option Nat} (hqty : 0 ≤ order.qty)
    (hlimit : limitKey order = .ok limit) {fuel : Nat} {ts : Int} {book' : OrderBook ℚ}
    {taker : Order ℚ} {events : List (TradeEvent ℚ)}
    (h : matchOrder fuel book order [] ts = .ok (book', taker, events)) :
    taker = (sweepOf book order limit ts).taker ∧
      events = (sweepOf book order limit ts).events ∧
      ∃ levels, ladder order.side levels = (sweepOf book order limit ts).left ∧
        book' = book.setMakers order.side levels := by
  obtain ⟨levels, hlevels, bound, hmatch⟩ :=
    matchOrder_eq_sweepOf (live.qty_nonneg order.side) hqty hlimit ts
  have hmore := matchOrder_mono (le_max_left fuel (bound + 1)) h
  rw [hmatch _ (by omega), Except.ok.injEq, Prod.mk.injEq, Prod.mk.injEq] at hmore
  obtain ⟨rfl, rfl, rfl⟩ := hmore
  exact ⟨rfl, rfl, levels, hlevels, rfl⟩

end LiveBook

/-- What submitting a valid order can do to the book when it returns, whatever
its other fields are. -/
inductive Settled (book : OrderBook ℚ) (order : Order ℚ) (limit : Option Nat)
    (ts : Int) : OrderBook ℚ → List (TradeEvent ℚ) → Prop where
  | killed (reason : CancelReason) :
      Settled book order limit ts book [.cancel order.id reason]
  | swept (levels : Levels ℚ) (tail : List (TradeEvent ℚ)) :
      ladder order.side levels = (sweepOf book order limit ts).left →
      (tail = [] ∨ ∃ reason, tail = [.cancel order.id reason]) →
      Settled book order limit ts (book.setMakers order.side levels)
        ((sweepOf book order limit ts).events ++ tail)
  | rested (levels : Levels ℚ) (key : Nat) :
      ladder order.side levels = (sweepOf book order limit ts).left →
      (sweepOf book order limit ts).taker.isFilled = false →
      Settled book order limit ts
        (restAt (book.setMakers order.side levels) key
          (sweepOf book order limit ts).taker)
        (sweepOf book order limit ts).events

/-- Matched, with nothing left to do. -/
theorem Settled.of_sweep {book : OrderBook ℚ} {order : Order ℚ} {limit : Option Nat}
    {ts : Int} {levels : Levels ℚ}
    (hlevels : ladder order.side levels = (sweepOf book order limit ts).left) :
    Settled book order limit ts (book.setMakers order.side levels)
      (sweepOf book order limit ts).events := by
  have hswept : Settled book order limit ts _ _ := .swept levels [] hlevels (Or.inl rfl)
  rwa [List.append_nil] at hswept

section Outcomes

variable {book book' : OrderBook ℚ} (live : LiveBook book) {order : Order ℚ} {ts : Int}
  {fuel : Nat} {events : List (TradeEvent ℚ)}
include live

/-- A fill-or-kill order is killed, or matched and done with. -/
theorem LiveBook.settled_fok (hqty : 0 ≤ order.qty) {limit : Option Nat}
    (hlimit : limitKey order = .ok limit) (hfok : order.kind = .fok)
    (h : submitValidated fuel book order ts = .ok (book', events)) :
    Settled book order limit ts book' events := by
  simp only [submitValidated, hfok] at h
  obtain ⟨fillable, _, hrest⟩ := (bind_eq_ok _ _ _).1 h
  split at hrest
  · simp only [pure, Except.pure, Except.ok.injEq, Prod.mk.injEq] at hrest
    obtain ⟨rfl, rfl⟩ := hrest
    exact .killed _
  · obtain ⟨⟨b, taker, ev⟩, hmatch, hpure⟩ := (bind_eq_ok _ _ _).1 hrest
    simp only [pure, Except.pure, Except.ok.injEq, Prod.mk.injEq] at hpure
    obtain ⟨rfl, rfl⟩ := hpure
    obtain ⟨_, rfl, levels, hlevels, rfl⟩ := live.matchOrder_of_ok hqty hlimit hmatch
    exact .of_sweep hlevels

/-- A submission that returns ends in one of the outcomes. -/
theorem LiveBook.settled (hvalid : validateOrder order = .ok ())
    (h : submitValidated fuel book order ts = .ok (book', events)) :
    ∃ limit, limitKey order = .ok limit ∧ Settled book order limit ts book' events := by
  obtain ⟨hqty, limit, hlimit, _⟩ := limitKey_of_valid hvalid
  refine ⟨limit, hlimit, ?_⟩
  by_cases hfok : order.kind = .fok
  · exact live.settled_fok hqty.le hlimit hfok h
  · rw [submitValidated_eq_settle hfok] at h
    obtain ⟨⟨b, taker, ev⟩, hmatch, hsettle⟩ := (bind_eq_ok _ _ _).1 h
    obtain ⟨rfl, rfl, levels, hlevels, rfl⟩ :=
      live.matchOrder_of_ok hqty.le hlimit hmatch
    have horig := sweepOf_original book order limit ts
    have hid : (sweepOf book order limit ts).taker.id = order.id :=
      (congrArg Order.id horig :)
    have hkind : (sweepOf book order limit ts).taker.kind = order.kind :=
      (congrArg Order.kind horig :)
    have hprice : (sweepOf book order limit ts).taker.price = order.price :=
      (congrArg Order.price horig :)
    dsimp only [settle] at hsettle
    rw [hkind, hid] at hsettle
    split at hsettle
    · simp only [Except.ok.injEq, Prod.mk.injEq] at hsettle
      obtain ⟨rfl, rfl⟩ := hsettle
      exact .of_sweep hlevels
    · next hhungry =>
        rw [Bool.not_eq_true] at hhungry
        cases hk : order.kind with
        | fok => exact absurd hk hfok
        | ioc | market =>
            simp only [hk, Except.ok.injEq, Prod.mk.injEq] at hsettle
            obtain ⟨rfl, rfl⟩ := hsettle
            exact .swept levels _ hlevels (Or.inr ⟨_, rfl⟩)
        | limit =>
            simp only [hk] at hsettle
            obtain ⟨b, hrest, hpure⟩ := (bind_eq_ok _ _ _).1 hsettle
            simp only [pure, Except.pure, Except.ok.injEq, Prod.mk.injEq] at hpure
            obtain ⟨rfl, rfl⟩ := hpure
            cases hp : order.price with
            | none => simp [rest, hprice, hp] at hrest
            | some p =>
                obtain ⟨key, hkey, _⟩ := priceKey_of_valid hvalid hp
                rw [rest_eq_restAt _ (hprice.trans hp) hkey, Except.ok.injEq] at hrest
                rw [← hrest]
                exact .rested levels key hlevels hhungry

/-- The queue a sweep leaves: the pass over the makers in reach, then the rest. -/
theorem LiveBook.restingQueue_swept {limit : Option Nat} {levels : Levels ℚ}
    (hqty : 0 ≤ order.qty)
    (hlevels : ladder order.side levels = (sweepOf book order limit ts).left) :
    let l := ladder order.side (book.makers order.side)
    restingQueue (book.setMakers order.side levels) order.side =
      (priorityPass ts order (queueOf (reachable order.side limit l))).left ++
        queueOf (unreachable order.side limit l) := by
  intro l
  rw [restingQueue, makers_setMakers, hlevels]
  exact (sweepOf_eq_priorityPass (live.qty_nonneg order.side) hqty limit ts).2.2

omit live in
theorem restingQueue_opposite_setMakers (side : Side) (levels : Levels ℚ) :
    restingQueue (book.setMakers side levels) side.opposite =
      restingQueue book side.opposite := by
  rw [restingQueue, makers_opposite_setMakers, restingQueue]

omit live in
/-- The makers in reach and the others are the whole queue. -/
theorem restingQueue_split (side : Side) (limit : Option Nat) :
    restingQueue book side =
      queueOf (reachable side limit (ladder side (book.makers side))) ++
        queueOf (unreachable side limit (ladder side (book.makers side))) := by
  rw [← queueOf_append,
    reachable_append_unreachable _ (ladder_reach side limit (book.makers side)),
    restingQueue]

end Outcomes

/-- A property of orders that a trade keeps and that the taker has when it rests
is kept by every outcome. -/
theorem Settled.forall_resting {P : Order ℚ → Prop} {book book' : OrderBook ℚ}
    (live : LiveBook book) {order : Order ℚ} {limit : Option Nat} {ts : Int}
    {events : List (TradeEvent ℚ)} (hqty : 0 ≤ order.qty)
    (h : Settled book order limit ts book' events)
    (hdebit : ∀ m x, P m → (m.debit x).isFilled = false → P (m.debit x))
    (htaker : (sweepOf book order limit ts).taker.isFilled = false →
      P (sweepOf book order limit ts).taker)
    (hbook : ∀ e ∈ restingOrders book, P e.2) : ∀ e ∈ restingOrders book', P e.2 := by
  have hswept : ∀ levels, ladder order.side levels = (sweepOf book order limit ts).left →
      ∀ e ∈ restingOrders (book.setMakers order.side levels), P e.2 := by
    intro levels hlevels e he
    rw [(restingOrders_perm _ order.side).mem_iff, restingQueue_opposite_setMakers,
      live.restingQueue_swept hqty hlevels, List.append_assoc] at he
    have hold : ∀ x ∈
        restingQueue book order.side ++ restingQueue book order.side.opposite,
        P x.2 := fun x hx => hbook x ((restingOrders_perm book order.side).mem_iff.2 hx)
    rw [restingQueue_split order.side limit, List.append_assoc] at hold
    rcases List.mem_append.1 he with he | he
    · exact priorityPass_left_of ts hdebit _ order
        (fun x hx => hold x (List.mem_append_left _ hx)) e he
    · exact hold e (List.mem_append_right _ he)
  cases h with
  | killed reason => exact hbook
  | swept levels tail hlevels _ => exact hswept levels hlevels
  | rested levels key hlevels hhungry =>
      intro e he
      rw [(restingOrders_restAt _ key _).mem_iff] at he
      rcases List.mem_cons.1 he with rfl | he
      · exact htaker hhungry
      · exact hswept levels hlevels e he

theorem liveBook_iff (book : OrderBook ℚ) :
    LiveBook book ↔ ∀ e ∈ restingOrders book, Live e.2 := by
  constructor
  · intro h e he
    rcases List.mem_append.1 he with he | he
    · exact h .buy e he
    · exact h .sell e he
  · intro h side e he
    exact h e ((restingOrders_perm book side).mem_iff.2 (List.mem_append_left _ he))

theorem LiveBook.submitValidated {book book' : OrderBook ℚ} (live : LiveBook book)
    {order : Order ℚ} {fuel : Nat} {ts : Int} {events : List (TradeEvent ℚ)}
    (hvalid : validateOrder order = .ok ())
    (h : Matching.submitValidated fuel book order ts = .ok (book', events)) :
    LiveBook book' := by
  obtain ⟨limit, _, hsettled⟩ := live.settled hvalid h
  have hqty := (limitKey_of_valid hvalid).1
  rw [liveBook_iff]
  refine hsettled.forall_resting live hqty.le (fun m x hm hf => hm.debit hf) ?_
    ((liveBook_iff book).1 live)
  intro hhungry
  have hq : (sweepOf book order limit ts).taker.qty = order.qty :=
    (congrArg Order.qty (sweepOf_original book order limit ts) :)
  exact ⟨by rw [hq]; exact hqty, hhungry⟩

/-! ## Reachable books -/

/-- Books reached by submissions of arbitrary orders that return. -/
inductive Reached {F : Type} [F64 F] (symbol : Symbol) : OrderBook F → Prop where
  | new : Reached symbol (OrderBook.new symbol)
  | submit {book book' : OrderBook F} {events : List (TradeEvent F)} (order : Order F)
      (ts : Int) (fuel : Nat) :
      Reached symbol book → submit fuel book order ts = .ok (book', events) →
      Reached symbol book'
  | trySubmit {book book' : OrderBook F} {r : Except (BookError F) (List (TradeEvent F))}
      (order : Order F) (ts : Int) (fuel : Nat) : Reached symbol book →
      trySubmit fuel book order ts = .ok (book', r) → Reached symbol book'

theorem Reached.liveBook {symbol : Symbol} {book : OrderBook ℚ}
    (h : Reached symbol book) : LiveBook book := by
  induction h with
  | new => exact liveBook_new symbol
  | submit order ts fuel _ hcall ih =>
      rw [Matching.submit] at hcall
      split at hcall
      · simp only [Except.ok.injEq, Prod.mk.injEq] at hcall
        exact hcall.1 ▸ ih
      · next hvalid => exact ih.submitValidated hvalid hcall
  | trySubmit order ts fuel _ hcall ih =>
      rw [Matching.trySubmit] at hcall
      split at hcall
      · simp only [Except.ok.injEq, Prod.mk.injEq] at hcall
        exact hcall.1 ▸ ih
      · next hvalid =>
          obtain ⟨⟨b, events⟩, hsub, hpure⟩ := (bind_eq_ok _ _ _).1 hcall
          simp only [pure, Except.pure, Except.ok.injEq, Prod.mk.injEq] at hpure
          exact hpure.1 ▸ ih.submitValidated hvalid hsub

/-! ## Panics on reachable books -/

/-- Each trade takes no more from the taker than its maker has left. -/
theorem priorityPass_remaining_ge (ts : Int) (q : List (Nat × Order ℚ)) (taker : Order ℚ)
    (hq : ∀ e ∈ q, 0 ≤ e.2.remaining) :
    taker.remaining - (q.map fun e => e.2.remaining).sum ≤
      (priorityPass ts taker q).taker.remaining := by
  have hsum : ∀ {q : List (Nat × Order ℚ)}, (∀ e ∈ q, 0 ≤ e.2.remaining) →
      0 ≤ (q.map fun e => e.2.remaining).sum := by
    intro q hq
    apply List.sum_nonneg
    intro r hr
    obtain ⟨e, he, rfl⟩ := List.mem_map.1 hr
    exact hq e he
  have hpass := pass_priorityPass ts taker q
  generalize priorityPass ts taker q = m at hpass ⊢
  induction hpass with
  | stop _ => exact sub_le_self _ (hsum hq)
  | @last taker key maker rest _ _ =>
      have hrest := hsum fun e he => hq e (List.mem_cons_of_mem _ he)
      have hle := tradeQty_le_maker taker maker
      rw [List.map_cons, List.sum_cons, Order.debit_remaining]
      linarith
  | @used taker key maker rest m _ _ _ ih =>
      have hrec := ih fun e he => hq e (List.mem_cons_of_mem _ he)
      have hle := tradeQty_le_maker taker maker
      rw [Order.debit_remaining] at hrec
      rw [List.map_cons, List.sum_cons]
      linarith

/-- A limit order without a price, of which the opposite side leaves more than
dust. -/
def Stranded (book : OrderBook ℚ) (order : Order ℚ) : Prop :=
  order.kind = .limit ∧ order.price = none ∧
    order.qty * (1 / 1000000000) <
      order.remaining - ((restingQueue book order.side).map fun e => e.2.remaining).sum

/-- Without a price the whole opposite side is in reach, so the sweep leaves the
taker hungry when that side has too little. -/
theorem LiveBook.hungry_iff {book : OrderBook ℚ} (live : LiveBook book) {order : Order ℚ}
    (hqty : 0 < order.qty) (ts : Int) :
    (sweepOf book order none ts).taker.isFilled = false ↔
      order.qty * (1 / 1000000000) <
        order.remaining - ((restingQueue book order.side).map fun e =>
          e.2.remaining).sum := by
  have hreach : queueOf
      (reachable order.side none (ladder order.side (book.makers order.side))) =
      restingQueue book order.side := by
    have hall : reachable order.side none (ladder order.side (book.makers order.side)) =
        ladder order.side (book.makers order.side) :=
      List.filter_eq_self.2 fun e _ => rfl
    rw [hall, restingQueue]
  obtain ⟨_, htaker, _⟩ :=
    sweepOf_eq_priorityPass (live.qty_nonneg order.side) hqty.le none ts
  rw [hreach] at htaker
  have hq : (sweepOf book order none ts).taker.qty = order.qty :=
    (congrArg Order.qty (sweepOf_original book order none ts) :)
  constructor
  · intro hhungry
    have hrem := hhungry
    rw [htaker] at hhungry
    have heq := priorityPass_hungry ts _ order hqty.le
      (fun e he => (live order.side e he).qty_pos.le) hhungry
    rw [← Bool.not_eq_true, isFilled_iff, not_le, hq, htaker, heq] at hrem
    exact hrem
  · intro hlt
    have hge := priorityPass_remaining_ge ts (restingQueue book order.side) order
      fun e he => (live order.side e he).remaining_pos.le
    rw [← htaker] at hge
    rw [← Bool.not_eq_true, isFilled_iff, not_le, hq]
    exact hlt.trans_le hge

theorem LiveBook.panics_iff {book : OrderBook ℚ} (live : LiveBook book) {order : Order ℚ}
    (hvalid : validateOrder order = .ok ()) (ts : Int) :
    (∃ fuel p, Matching.submitValidated fuel book order ts = .error (.panic p)) ↔
      Stranded book order := by
  obtain ⟨hqty, limit, hlimit, _⟩ := limitKey_of_valid hvalid
  have hnone : order.price = none → limit = none := by
    intro hp
    rw [limitKey, hp] at hlimit
    exact (Except.ok.inj hlimit).symm
  constructor
  · rintro ⟨fuel, p, hpanic⟩
    obtain ⟨_, hk, hp, b, taker, ev, hmatch, hhungry⟩ :=
      (submitValidated_panic_iff hvalid).1 hpanic
    obtain ⟨rfl, _⟩ := live.matchOrder_of_ok hqty.le hlimit hmatch
    rw [hnone hp] at hhungry
    exact ⟨hk, hp, (live.hungry_iff hqty ts).1 hhungry⟩
  · rintro ⟨hk, hp, hlt⟩
    obtain ⟨levels, _, bound, hmatch⟩ :=
      matchOrder_eq_sweepOf (live.qty_nonneg order.side) hqty.le hlimit ts
    refine ⟨bound + 1, .limitNeedsPrice, (submitValidated_panic_iff hvalid).2
      ⟨rfl, hk, hp, _, _, _, hmatch _ (Nat.lt_succ_self bound), ?_⟩⟩
    rw [hnone hp]
    exact (live.hungry_iff hqty ts).2 hlt

section Calls

variable {F : Type} [F64 F] {fuel : Nat} {book : OrderBook F} {order : Order F}
  {ts : Int}

theorem submit_of_valid (hvalid : validateOrder order = .ok ()) :
    submit fuel book order ts = submitValidated fuel book order ts := by
  rw [submit, hvalid]

theorem trySubmit_panic_iff (hvalid : validateOrder order = .ok ()) (p : Panic) :
    trySubmit fuel book order ts = .error (.panic p) ↔
      submitValidated fuel book order ts = .error (.panic p) := by
  rw [trySubmit, hvalid]
  dsimp only
  rw [bind_eq_error]
  constructor
  · rintro (h | ⟨_, _, hpure⟩)
    · exact h
    · cases hpure
  · exact Or.inl

/-- A limit order without a price that does not count as filled. -/
def Unrestable (order : Order F) : Prop :=
  order.kind = .limit ∧ order.price = none ∧ order.isFilled = false

/-- On the empty book nothing fills such an order, so it comes to rest. -/
theorem Unrestable.panics (hvalid : validateOrder order = .ok ()) (h : Unrestable order)
    (symbol : Symbol) :
    submitValidated 1 (OrderBook.new symbol) order ts =
      .error (.panic .limitNeedsPrice) := by
  obtain ⟨hk, hp, hhungry⟩ := h
  have hlimit : limitKey order = .ok none := by rw [limitKey, hp]
  refine (submitValidated_panic_iff hvalid).2
    ⟨rfl, hk, hp, OrderBook.new symbol, order, [], ?_, hhungry⟩
  rw [matchOrder_eq_matchLoop hlimit]
  cases order.side with
  | buy => rfl
  | sell => rfl

/-- No book makes another validated order panic. -/
theorem unrestable_of_panic (hvalid : validateOrder order = .ok ()) {p : Panic}
    (h : submitValidated fuel book order ts = .error (.panic p)) : Unrestable order := by
  obtain ⟨_, hk, hp, book', taker, events, hmatch, hhungry⟩ :=
    (submitValidated_panic_iff hvalid).1 h
  refine ⟨hk, hp, Bool.eq_false_iff.2 ?_⟩
  intro hfilled
  obtain ⟨limit, hlimit⟩ := exists_limitKey hvalid
  rw [matchOrder_eq_matchLoop hlimit] at hmatch
  rw [matchLoop_filled _ _ ts hfilled hmatch, hfilled] at hhungry
  cases hhungry

/-- Some reachable book makes a validated order panic exactly if it is a limit
order without a price that does not count as filled. -/
theorem exists_panic_iff (hvalid : validateOrder order = .ok ()) (symbol : Symbol) :
    (∃ book : OrderBook F, Reached symbol book ∧
      ∃ fuel p, submitValidated fuel book order ts = .error (.panic p)) ↔
      Unrestable order := by
  constructor
  · rintro ⟨book, _, fuel, p, h⟩
    exact unrestable_of_panic hvalid h
  · intro h
    exact ⟨_, .new, 1, _, h.panics hvalid symbol⟩

end Calls

/-- A limit order without a price reaches the `expect` of `rest` on an empty
book, though `validate_order` accepts it. -/
theorem submit_panics_on_unpriced_limit :
    let order : Order ℚ := ⟨1, ['X'], .buy, .limit, none, 1, 1, 0⟩
    Reached ['X'] (OrderBook.new ['X'] : OrderBook ℚ) ∧ validateOrder order = .ok () ∧
      trySubmit 1 (OrderBook.new ['X']) order 0 = .error (.panic .limitNeedsPrice) ∧
      submit 1 (OrderBook.new ['X']) order 0 = .error (.panic .limitNeedsPrice) := by
  intro order
  have hvalid : validateOrder order = .ok () := by decide +kernel
  have hstuck : Unrestable order := ⟨rfl, rfl, by decide +kernel⟩
  have hpanic : submitValidated 1 (OrderBook.new ['X']) order 0 =
      .error (.panic .limitNeedsPrice) := hstuck.panics hvalid ['X']
  exact ⟨.new, hvalid, (trySubmit_panic_iff hvalid _).2 hpanic,
    (submit_of_valid hvalid).trans hpanic⟩

/-- When a submission panics.  For every carrier, some reachable book makes a
validated order panic exactly if the order is a limit order without a price that
does not count as filled, and an order that fails validation leaves the book as
it was.  A given reachable book of exact quantities makes a validated order panic
exactly if the order is a limit order without a price that the opposite side
cannot fill. -/
theorem submit_panics_iff (ts : Int) (symbol : Symbol) :
    (∀ (F : Type) [F64 F] (order : Order F),
      (validateOrder order = .ok () →
        ((∃ book, Reached symbol book ∧
          ∃ fuel p, submit fuel book order ts = .error (.panic p)) ↔
          Unrestable order) ∧
        ((∃ book, Reached symbol book ∧
            ∃ fuel p, trySubmit fuel book order ts = .error (.panic p)) ↔
            Unrestable order)) ∧
      ∀ e, validateOrder order = .error e → ∀ fuel book,
        submit fuel book order ts = .ok (book, [.cancel order.id .invalidOrder]) ∧
          trySubmit fuel book order ts = .ok (book, .error e)) ∧
    ∀ book : OrderBook ℚ, Reached symbol book →
      ∀ order : Order ℚ, validateOrder order = .ok () →
        ((∃ fuel p, submit fuel book order ts = .error (.panic p)) ↔
          Stranded book order) ∧
        ((∃ fuel p, trySubmit fuel book order ts = .error (.panic p)) ↔
          Stranded book order) := by
  refine ⟨?_, ?_⟩
  · intro F _ order
    refine ⟨?_, ?_⟩
    · intro hvalid
      simp only [submit_of_valid hvalid, trySubmit_panic_iff hvalid]
      exact ⟨exists_panic_iff hvalid symbol, exists_panic_iff hvalid symbol⟩
    · intro e he fuel book
      exact ⟨by rw [submit, he], by rw [trySubmit, he]⟩
  · intro book hreached order hvalid
    have hiff := LiveBook.panics_iff hreached.liveBook hvalid ts
    simp only [submit_of_valid hvalid, trySubmit_panic_iff hvalid]
    exact ⟨hiff, hiff⟩

/-- A limit order without a price panics on the empty book and no priced one
panics on any reachable book. -/
theorem submit_panics_iff_empty_book :
    let priced : Order ℚ := .limit 1 ['X'] .buy 5 1 0
    let unpriced : Order ℚ := ⟨1, ['X'], .buy, .limit, none, 1, 1, 0⟩
    (¬∃ book, Reached ['X'] book ∧
      ∃ fuel p, submit fuel book priced 0 = .error (.panic p)) ∧
      ∃ fuel p, submit fuel (OrderBook.new ['X']) unpriced 0 = .error (.panic p) := by
  intro priced unpriced
  obtain ⟨hall, hone⟩ := submit_panics_iff 0 ['X']
  refine ⟨?_, ?_⟩
  · rw [((hall ℚ priced).1 (by decide +kernel)).1]
    rintro ⟨_, hp, _⟩
    cases hp
  · rw [(hone _ .new unpriced (by decide +kernel)).1]
    refine ⟨rfl, rfl, ?_⟩
    decide +kernel

end Candlestore.Matching
