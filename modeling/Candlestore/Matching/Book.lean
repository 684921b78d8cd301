import Candlestore.Lib.SortedMap
import Candlestore.Matching.Order

/-!
# The order book

Price-time priority matching for one symbol.  Both sides of the book are maps
from price keys to first-in-first-out queues; `matchBuy` walks the asks upwards
and `matchSell` the bids downwards, so both are `matchLoop` read at a side.

A call can stop without a result: at one of the panics of the source, or by
running forever, which shows as running out of any amount of fuel.  The fuel
bounds both loops, the one over the levels and the one inside a level.
-/

namespace Candlestore.Matching

open Candlestore Lib

/-- Why an order was refused. -/
inductive BookError (F : Type) where
  | priceNotFinite
  | priceNonPositive (price : F)
  | priceOutOfRange (price : F)
  | quantityInvalid (qty : F)
  deriving DecidableEq, Repr

/-- The panics of the book. -/
inductive Panic where
  | unvalidatedPrice
  | limitNeedsPrice
  | unreachable
  deriving DecidableEq, Repr

/-- Why a call gives no result. -/
inductive Stop where
  | panic (p : Panic)
  | outOfFuel
  deriving DecidableEq, Repr

variable {F : Type}

/-- One side of a book: queues by price key. -/
abbrev Levels (F : Type) := SortedMap Nat (List (Order F))

/-- The two sides of a book, by price key. -/
structure OrderBook (F : Type) where
  symbol : Symbol
  bids : Levels F
  asks : Levels F

namespace OrderBook

/-- A book without orders. -/
def new (symbol : Symbol) : OrderBook F := ⟨symbol, .empty, .empty⟩

/-- The side of the book a taker of side `side` trades with. -/
def makers (book : OrderBook F) : Side → Levels F
  | .buy => book.asks
  | .sell => book.bids

/-- The book with other levels on the side that orders of `side` trade with. -/
def setMakers (book : OrderBook F) (side : Side) (levels : Levels F) : OrderBook F :=
  match side with
  | .buy => { book with asks := levels }
  | .sell => { book with bids := levels }

end OrderBook

/-- First key a taker of side `side` meets: the lowest ask or the highest bid. -/
def bestKey (side : Side) (levels : Levels F) : Option Nat :=
  match side with
  | .buy => levels.firstKey?
  | .sell => levels.lastKey?

/-- The key is worse than the taker's limit. -/
def beyond (side : Side) (key limit : Nat) : Bool :=
  match side with
  | .buy => decide (key > limit)
  | .sell => decide (key < limit)

/-- The price limit keeps the taker from this level. -/
def outOfReach (side : Side) (limit : Option Nat) (key : Nat) : Bool :=
  (limit.map (beyond side key)).getD false

section Pricing

variable [F64 F]

/-- `PRICE_SCALE`: a price key counts hundred-millionths. -/
def priceScale : F := F64.lit 100000000

/-- `MAX_PRICE`.  Like the cast in `keyPrice`, that of `u64::MAX` is left to the
carrier. -/
def maxPrice : F := F64.lit u64Max / priceScale

/-- `try_price_key`: the nearest tick, if the price is positive, finite and in range. -/
def tryPriceKey (p : F) : Except (BookError F) Nat :=
  if !F64.isFinite p then .error .priceNotFinite
  else if p ≤ F64.lit 0 then .error (.priceNonPositive p)
  else if maxPrice < p then .error (.priceOutOfRange p)
  else .ok (F64.roundU64 (p * priceScale))

/-- `price_key`, which panics where the checked one fails. -/
def priceKey (p : F) : Except Stop Nat :=
  match tryPriceKey p with
  | .ok key => .ok key
  | .error _ => .error (.panic .unvalidatedPrice)

/-- `key_price`: back from a key to a price. -/
def keyPrice (key : Nat) : F := F64.lit key / priceScale

/-- The checks of `validate_order`, in their order. -/
def validateOrder (order : Order F) : Except (BookError F) Unit :=
  if !F64.isFinite order.qty || decide (order.qty ≤ F64.lit 0) then
    .error (.quantityInvalid order.qty)
  else
    match order.price with
    | none => .ok ()
    | some p => do
        let _ ← tryPriceKey p
        return ()

/-- `order.price.map(price_key)`. -/
def limitKey (order : Order F) : Except Stop (Option Nat) :=
  match order.price with
  | none => .ok none
  | some p => do
      let key ← priceKey p
      return some key

end Pricing

section Engine

variable [F64 F]

/-- What the front maker and the taker exchange. -/
def tradeQty (taker maker : Order F) : F := min taker.remaining maker.remaining

/-- The two fills of one trade, taker first. -/
def fillPair (key : Nat) (ts : Int) (taker maker : Order F) : List (TradeEvent F) :=
  [taker.fillEvent (keyPrice key) (tradeQty taker maker) ts,
    maker.fillEvent (keyPrice key) (tradeQty taker maker) ts]

/-- The loop of `fill_at` over one level. -/
def fillLoop (key : Nat) (ts : Int) :
    Nat → Order F → List (Order F) → List (TradeEvent F) →
      Except Stop (Order F × List (Order F) × List (TradeEvent F))
  | 0, _, _, _ => .error .outOfFuel
  | fuel + 1, taker, level, events =>
      if taker.isFilled then .ok (taker, level, events)
      else
        match level with
        | [] => .ok (taker, level, events)
        | maker :: rest =>
            let qty := tradeQty taker maker
            let level := if (maker.debit qty).isFilled then rest
              else maker.debit qty :: rest
            fillLoop key ts fuel (taker.debit qty) level
              (events ++ fillPair key ts taker maker)

/-- `fill_at`: trade with one level, and put what is left of it back. -/
def fillAt (fuel : Nat) (book : OrderBook F) (key : Nat) (taker : Order F)
    (events : List (TradeEvent F)) (ts : Int) :
    Except Stop (OrderBook F × Order F × List (TradeEvent F)) :=
  match (book.makers taker.side).get? key with
  | none => .ok (book, taker, events)
  | some level => do
      let (taker', level', events') ← fillLoop key ts fuel taker level events
      return (book.setMakers taker.side ((book.makers taker.side).insert key level'),
        taker', events')

/-- Remove the level when it is empty or missing. -/
def dropEmptyLevel (book : OrderBook F) (side : Side) (key : Nat) : OrderBook F :=
  if (((book.makers side).get? key).map List.isEmpty).getD true then
    book.setMakers side ((book.makers side).erase key)
  else book

/-- The loop of `match_buy` and `match_sell` over the levels, best first. -/
def matchLoop (side : Side) (limit : Option Nat) (ts : Int) (inner : Nat) :
    Nat → OrderBook F → Order F → List (TradeEvent F) →
      Except Stop (OrderBook F × Order F × List (TradeEvent F))
  | 0, _, _, _ => .error .outOfFuel
  | fuel + 1, book, order, events =>
      match bestKey side (book.makers side) with
      | none => .ok (book, order, events)
      | some best =>
          if outOfReach side limit best then .ok (book, order, events)
          else do
            let (book', order', events') ← fillAt inner book best order events ts
            let book'' := dropEmptyLevel book' side best
            if order'.isFilled then return (book'', order', events')
            else matchLoop side limit ts inner fuel book'' order' events'

/-- `match_buy`: take the asks from the lowest price up to the limit. -/
def matchBuy (fuel : Nat) (book : OrderBook F) (order : Order F)
    (events : List (TradeEvent F)) (ts : Int) :
    Except Stop (OrderBook F × Order F × List (TradeEvent F)) := do
  let limit ← limitKey order
  matchLoop .buy limit ts fuel fuel book order events

/-- `match_sell`: take the bids from the highest price down to the limit. -/
def matchSell (fuel : Nat) (book : OrderBook F) (order : Order F)
    (events : List (TradeEvent F)) (ts : Int) :
    Except Stop (OrderBook F × Order F × List (TradeEvent F)) := do
  let limit ← limitKey order
  matchLoop .sell limit ts fuel fuel book order events

/-- The loop for the side of the order. -/
def matchOrder (fuel : Nat) (book : OrderBook F) (order : Order F)
    (events : List (TradeEvent F)) (ts : Int) :
    Except Stop (OrderBook F × Order F × List (TradeEvent F)) :=
  match order.side with
  | .buy => matchBuy fuel book order events ts
  | .sell => matchSell fuel book order events ts

/-- Quantity resting at the keys a taker may reach, summed in key order. -/
def available (levels : Levels F) (reach : Nat → Bool) : F :=
  (((levels.entries.filter fun e => reach e.1).flatMap Prod.snd).map
    Order.remaining).foldl (· + ·) (F64.lit 0)

/-- Quantity resting within the limit of a taker of side `side`. -/
def availableTo (book : OrderBook F) (side : Side) (limit : Option Nat) : F :=
  match side with
  | .buy => available book.asks fun key => decide (key ≤ limit.getD u64Max)
  | .sell => available book.bids fun key => decide (limit.getD 0 ≤ key)

/-- The pre-check of a fill-or-kill order: whether there is enough within its
limit, up to the tolerance. -/
def canFill (book : OrderBook F) (order : Order F) : Except Stop Bool := do
  let limit ← limitKey order
  let avail := availableTo book order.side limit
  return decide (order.remaining * (F64.lit 1 - qtyRelTol) ≤ avail)

/-- `entry(key).or_default().push_back(order)`. -/
def pushBack (levels : Levels F) (key : Nat) (order : Order F) : Levels F :=
  levels.insert key ((levels.get? key).getD [] ++ [order])

/-- Put what remains of a limit order into its own side.  It has to have a price. -/
def rest (book : OrderBook F) (order : Order F) : Except Stop (OrderBook F) :=
  match order.price with
  | none => .error (.panic .limitNeedsPrice)
  | some p => do
      let key ← priceKey p
      match order.side with
      | .buy => return { book with bids := pushBack book.bids key order }
      | .sell => return { book with asks := pushBack book.asks key order }

/-- What happens to a taker, not fill-or-kill, once matching is over. -/
def settle (book : OrderBook F) (order : Order F) (events : List (TradeEvent F)) :
    Except Stop (OrderBook F × List (TradeEvent F)) :=
  if order.isFilled then .ok (book, events)
  else
    match order.kind with
    | .limit => do
        let book' ← rest book order
        return (book', events)
    | .ioc => .ok (book, events ++ [.cancel order.id .iocRemainder])
    | .market => .ok (book, events ++ [.cancel order.id .marketNoLiquidity])
    | .fok => .error (.panic .unreachable)

/-- `submit_validated`: match the order, then do what its kind says with the rest.  A
fill-or-kill order that cannot be filled is not matched at all. -/
def submitValidated (fuel : Nat) (book : OrderBook F) (order : Order F) (ts : Int) :
    Except Stop (OrderBook F × List (TradeEvent F)) :=
  match order.kind with
  | .fok => do
      let fillable ← canFill book order
      if !fillable then return (book, [.cancel order.id .fokNoFill])
      else
        let (book', _, events) ← matchOrder fuel book order [] ts
        return (book', events)
  | _ => do
      let (book', order', events) ← matchOrder fuel book order [] ts
      settle book' order' events

/-- `try_submit`: an invalid order is an error, and the book stays as it was. -/
def trySubmit (fuel : Nat) (book : OrderBook F) (order : Order F) (ts : Int) :
    Except Stop (OrderBook F × Except (BookError F) (List (TradeEvent F))) :=
  match validateOrder order with
  | .error e => .ok (book, .error e)
  | .ok () => do
      let (book', events) ← submitValidated fuel book order ts
      return (book', .ok events)

/-- `submit`: an invalid order is answered by a cancel. -/
def submit (fuel : Nat) (book : OrderBook F) (order : Order F) (ts : Int) :
    Except Stop (OrderBook F × List (TradeEvent F)) :=
  match validateOrder order with
  | .error _ => .ok (book, [.cancel order.id .invalidOrder])
  | .ok () => submitValidated fuel book order ts

end Engine

namespace OrderBook

variable [F64 F]

/-- `best_bid`. -/
def bestBid (book : OrderBook F) : Option F := book.bids.lastKey?.map keyPrice

/-- `best_ask`. -/
def bestAsk (book : OrderBook F) : Option F := book.asks.firstKey?.map keyPrice

/-- `spread`, if both sides have orders. -/
def spread (book : OrderBook F) : Option F := do
  let ask ← book.bestAsk
  let bid ← book.bestBid
  return ask - bid

end OrderBook

/-! ## Fuel -/

theorem bind_eq_ok {α β : Type} (x : Except Stop α) (f : α → Except Stop β) (b : β) :
    x >>= f = .ok b ↔ ∃ a, x = .ok a ∧ f a = .ok b := by
  cases x with
  | error e => simp [bind, Except.bind]
  | ok a => simp [bind, Except.bind]

/-- A call found to return by evaluation, with a decidable fact about its
result. -/
theorem exists_ok {α : Type} {x : Except Stop α} {p : α → Bool}
    (h : x.toOption.any p = true) : ∃ r, x = .ok r ∧ p r = true := by
  cases x with
  | error e => cases h
  | ok r => exact ⟨r, rfl, h⟩

section Fuel

variable [F64 F]

/-- A loop that ended ends with the same result when it is given more fuel. -/
theorem fillLoop_mono (key : Nat) (ts : Int) {fuel fuel' : Nat} {taker : Order F}
    {level : List (Order F)} {events : List (TradeEvent F)}
    {r : Order F × List (Order F) × List (TradeEvent F)} (hle : fuel ≤ fuel')
    (h : fillLoop key ts fuel taker level events = .ok r) :
    fillLoop key ts fuel' taker level events = .ok r := by
  induction fuel generalizing fuel' taker level events with
  | zero => exact absurd h (by simp [fillLoop])
  | succ fuel ih =>
      obtain ⟨fuel', rfl⟩ : ∃ n, fuel' = n + 1 := ⟨fuel' - 1, by omega⟩
      cases level with
      | nil => exact h
      | cons maker rest =>
          rw [fillLoop] at h ⊢
          split at h
          · next hf => rwa [if_pos hf]
          · next hf =>
              rw [if_neg hf]
              exact ih (by omega) h

theorem fillAt_mono {fuel fuel' : Nat} {book : OrderBook F} {key : Nat} {taker : Order F}
    {events : List (TradeEvent F)} {ts : Int}
    {r : OrderBook F × Order F × List (TradeEvent F)} (hle : fuel ≤ fuel')
    (h : fillAt fuel book key taker events ts = .ok r) :
    fillAt fuel' book key taker events ts = .ok r := by
  rw [fillAt] at h ⊢
  split at h
  · next hget => exact h
  · next level hget =>
      obtain ⟨a, hloop, hrest⟩ := (bind_eq_ok _ _ _).1 h
      exact (bind_eq_ok _ _ _).2 ⟨a, fillLoop_mono key ts hle hloop, hrest⟩

theorem matchLoop_mono (side : Side) (limit : Option Nat) (ts : Int)
    {inner inner' fuel fuel' : Nat} {book : OrderBook F} {order : Order F}
    {events : List (TradeEvent F)} {r : OrderBook F × Order F × List (TradeEvent F)}
    (hinner : inner ≤ inner') (hle : fuel ≤ fuel')
    (h : matchLoop side limit ts inner fuel book order events = .ok r) :
    matchLoop side limit ts inner' fuel' book order events = .ok r := by
  induction fuel generalizing fuel' book order events with
  | zero => exact absurd h (by simp [matchLoop])
  | succ fuel ih =>
      obtain ⟨fuel', rfl⟩ : ∃ n, fuel' = n + 1 := ⟨fuel' - 1, by omega⟩
      rw [matchLoop] at h ⊢
      split at h
      · exact h
      · split at h
        · next hout => rwa [if_pos hout]
        · next hout =>
            rw [if_neg hout]
            obtain ⟨⟨book', order', events'⟩, hfill, hrest⟩ := (bind_eq_ok _ _ _).1 h
            refine (bind_eq_ok _ _ _).2 ⟨_, fillAt_mono hinner hfill, ?_⟩
            dsimp only at hrest ⊢
            split at hrest
            · next hf => rwa [if_pos hf]
            · next hf =>
                rw [if_neg hf]
                exact ih (by omega) hrest

/-- Once the price of the order has its key, matching is the loop of its side. -/
theorem matchOrder_eq_matchLoop {fuel : Nat} {book : OrderBook F} {order : Order F}
    {events : List (TradeEvent F)} {ts : Int} {limit : Option Nat}
    (hlimit : limitKey order = .ok limit) :
    matchOrder fuel book order events ts =
      matchLoop order.side limit ts fuel fuel book order events := by
  cases hside : order.side with
  | buy => simp only [matchOrder, hside, matchBuy, hlimit, bind, Except.bind]
  | sell => simp only [matchOrder, hside, matchSell, hlimit, bind, Except.bind]

theorem matchOrder_mono {fuel fuel' : Nat} {book : OrderBook F} {order : Order F}
    {events : List (TradeEvent F)} {ts : Int}
    {r : OrderBook F × Order F × List (TradeEvent F)} (hle : fuel ≤ fuel')
    (h : matchOrder fuel book order events ts = .ok r) :
    matchOrder fuel' book order events ts = .ok r := by
  cases hside : order.side with
  | buy =>
      simp only [matchOrder, hside, matchBuy] at h ⊢
      obtain ⟨limit, hlimit, hloop⟩ := (bind_eq_ok _ _ _).1 h
      exact (bind_eq_ok _ _ _).2
        ⟨limit, hlimit, matchLoop_mono .buy limit ts hle hle hloop⟩
  | sell =>
      simp only [matchOrder, hside, matchSell] at h ⊢
      obtain ⟨limit, hlimit, hloop⟩ := (bind_eq_ok _ _ _).1 h
      exact (bind_eq_ok _ _ _).2
        ⟨limit, hlimit, matchLoop_mono .sell limit ts hle hle hloop⟩

/-- Orders that are not fill-or-kill are matched and then settled. -/
theorem submitValidated_eq_settle {fuel : Nat} {book : OrderBook F} {order : Order F}
    {ts : Int} (hfok : order.kind ≠ .fok) : submitValidated fuel book order ts =
      matchOrder fuel book order [] ts >>= fun r => settle r.1 r.2.1 r.2.2 := by
  cases hk : order.kind with
  | fok => exact absurd hk hfok
  | limit | market | ioc => simp only [submitValidated, hk]

theorem submitValidated_mono {fuel fuel' : Nat} {book : OrderBook F} {order : Order F}
    {ts : Int} {r : OrderBook F × List (TradeEvent F)} (hle : fuel ≤ fuel')
    (h : submitValidated fuel book order ts = .ok r) :
    submitValidated fuel' book order ts = .ok r := by
  have hmatch : ∀ f : OrderBook F × Order F × List (TradeEvent F) →
      Except Stop (OrderBook F × List (TradeEvent F)),
      (matchOrder fuel book order [] ts >>= f) = .ok r →
      (matchOrder fuel' book order [] ts >>= f) = .ok r := by
    intro f hf
    obtain ⟨a, ha, hrest⟩ := (bind_eq_ok _ _ _).1 hf
    exact (bind_eq_ok _ _ _).2 ⟨a, matchOrder_mono hle ha, hrest⟩
  by_cases hfok : order.kind = .fok
  · simp only [submitValidated, hfok] at h ⊢
    obtain ⟨fillable, hcan, hrest⟩ := (bind_eq_ok _ _ _).1 h
    refine (bind_eq_ok _ _ _).2 ⟨fillable, hcan, ?_⟩
    cases fillable with
    | false => exact hrest
    | true => exact hmatch _ hrest
  · rw [submitValidated_eq_settle hfok] at h ⊢
    exact hmatch _ h

end Fuel

end Candlestore.Matching
