import Candlestore.Candle

/-!
# Orders and trade events

The data of the matching engine.  `remaining` counts down from `qty`, and an
order is filled once what remains is dust relative to its original size.
-/

namespace Candlestore.Matching

open Candlestore

/-- Which side of the book an order comes from. -/
inductive Side where
  | buy
  | sell
  deriving DecidableEq, Repr

/-- The side it trades with. -/
def Side.opposite : Side → Side
  | .buy => .sell
  | .sell => .buy

/-- What happens to the part of an order that finds no partner. -/
inductive OrderType where
  | limit
  | market
  | ioc
  | fok
  deriving DecidableEq, Repr

/-- `price` is `none` for market orders. -/
structure Order (F : Type) where
  id : Nat
  symbol : Symbol
  side : Side
  kind : OrderType
  price : Option F
  qty : F
  remaining : F
  ts : Int
  deriving DecidableEq, Repr

variable {F : Type}

namespace Order

/-- `Order::limit`. -/
def limit (id : Nat) (symbol : Symbol) (side : Side) (price qty : F) (ts : Int) :
    Order F :=
  ⟨id, symbol, side, .limit, some price, qty, qty, ts⟩

/-- `Order::market`, the one kind without a price. -/
def market (id : Nat) (symbol : Symbol) (side : Side) (qty : F) (ts : Int) : Order F :=
  ⟨id, symbol, side, .market, none, qty, qty, ts⟩

/-- `Order::ioc`. -/
def ioc (id : Nat) (symbol : Symbol) (side : Side) (price qty : F) (ts : Int) :
    Order F :=
  ⟨id, symbol, side, .ioc, some price, qty, qty, ts⟩

/-- `Order::fok`. -/
def fok (id : Nat) (symbol : Symbol) (side : Side) (price qty : F) (ts : Int) :
    Order F :=
  ⟨id, symbol, side, .fok, some price, qty, qty, ts⟩

/-- The order was made by one of the constructors and not touched since. -/
inductive Built : Order F → Prop where
  | limit (id symbol side price qty ts) : Built (limit id symbol side price qty ts)
  | market (id symbol side qty ts) : Built (market id symbol side qty ts)
  | ioc (id symbol side price qty ts) : Built (ioc id symbol side price qty ts)
  | fok (id symbol side price qty ts) : Built (fok id symbol side price qty ts)

theorem Built.remaining_eq {o : Order F} (h : o.Built) : o.remaining = o.qty := by
  cases h <;> rfl

theorem Built.price_ne_none {o : Order F} (h : o.Built) (hk : o.kind ≠ .market) :
    ∃ p, o.price = some p := by
  cases h with
  | limit id symbol side price qty ts => exact ⟨price, rfl⟩
  | market id symbol side qty ts => exact absurd rfl hk
  | ioc id symbol side price qty ts => exact ⟨price, rfl⟩
  | fok id symbol side price qty ts => exact ⟨price, rfl⟩

theorem Built.price_eq_none {o : Order F} (h : o.Built) (hk : o.kind = .market) :
    o.price = none := by
  cases h with
  | market => rfl
  | limit | ioc | fok => cases hk

theorem Built.withId {o : Order F} (h : o.Built) (id : Nat) :
    Built { o with id := id } := by
  cases h <;> constructor

end Order

section Filled

variable [F64 F]

/-- `QTY_REL_TOL`, one part in a billion. -/
def qtyRelTol : F := F64.lit (1 / 1000000000)

/-- `qty_is_zero`: what remains is dust against the original quantity. -/
def qtyIsZero (remaining original : F) : Bool :=
  decide (remaining ≤ original * qtyRelTol)

/-- `is_filled`. -/
def Order.isFilled (o : Order F) : Bool := qtyIsZero o.remaining o.qty

/-- `remaining -= qty`. -/
def Order.debit (o : Order F) (qty : F) : Order F :=
  { o with remaining := o.remaining - qty }

@[simp] theorem Order.debit_id (o : Order F) (q : F) : (o.debit q).id = o.id := rfl

@[simp] theorem Order.debit_side (o : Order F) (q : F) : (o.debit q).side = o.side := rfl

@[simp] theorem Order.debit_kind (o : Order F) (q : F) : (o.debit q).kind = o.kind := rfl

@[simp] theorem Order.debit_price (o : Order F) (q : F) : (o.debit q).price = o.price :=
  rfl

@[simp] theorem Order.debit_qty (o : Order F) (q : F) : (o.debit q).qty = o.qty := rfl

@[simp] theorem Order.debit_remaining (o : Order F) (q : F) :
    (o.debit q).remaining = o.remaining - q := rfl

end Filled

/-- One side of a trade. -/
structure Fill (F : Type) where
  orderId : Nat
  symbol : Symbol
  side : Side
  price : F
  qty : F
  ts : Int
  deriving DecidableEq, Repr

/-- Why an order is cancelled. -/
inductive CancelReason where
  | iocRemainder
  | fokNoFill
  | marketNoLiquidity
  | invalidOrder
  deriving DecidableEq, Repr

/-- What a submission reports. -/
inductive TradeEvent (F : Type) where
  | fill (f : Fill F)
  | cancel (orderId : Nat) (reason : CancelReason)
  deriving DecidableEq, Repr

namespace TradeEvent

/-- The order an event is about. -/
def orderId : TradeEvent F → Nat
  | .fill f => f.orderId
  | .cancel id _ => id

/-- The fill, if the event is one. -/
def fill? : TradeEvent F → Option (Fill F)
  | .fill f => some f
  | .cancel _ _ => none

/-- The event is a fill. -/
def isFill : TradeEvent F → Bool
  | .fill _ => true
  | .cancel _ _ => false

end TradeEvent

/-- The fill event one side of a trade receives. -/
def Order.fillEvent (o : Order F) (price qty : F) (ts : Int) : TradeEvent F :=
  .fill ⟨o.id, o.symbol, o.side, price, qty, ts⟩

end Candlestore.Matching
