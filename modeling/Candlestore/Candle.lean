import Mathlib.Data.Rat.Floor

/-!
# Candles and the `f64` operations the crate relies on

The crate computes with Rust's `f64`.  The store only ever asks whether a
field is finite, while the matching engine subtracts, compares and scales
quantities.  Every model below is therefore generic over a carrier `F` with
the operations of `F64`: store results hold for any carrier, and the matching
results are stated for the exact reading `F = ℚ`.
-/

namespace Candlestore

/-- The `f64` operations used by the modelled code.  `lit q` is the value of a
numeric literal or of an integer cast `k as f64`; `roundU64 x` is
`x.round() as u64`, rounding half away from zero and then casting with
saturation. -/
class F64 (F : Type) extends Add F, Sub F, Mul F, Div F, Min F, LE F, LT F where
  isFinite : F → Bool
  decLe : DecidableLE F
  decLt : DecidableLT F
  lit : ℚ → F
  roundU64 : F → Nat

instance (priority := low) instDecidableLE (F : Type) [F64 F] : DecidableLE F :=
  F64.decLe

instance (priority := low) instDecidableLT (F : Type) [F64 F] : DecidableLT F :=
  F64.decLt

/-- `u64::MAX`. -/
def u64Max : Nat := 2 ^ 64 - 1

/-- `x.round() as u64` on exact rationals.  Half away from zero is `⌊x + 1/2⌋`
on non-negative input, and every negative input is cast to `0`. -/
def roundRatU64 (x : ℚ) : Nat := min u64Max ⌊x + 1 / 2⌋.toNat

/-- The exact reading of `f64`: every value is a finite rational and no
operation rounds. -/
instance instF64Rat : F64 ℚ where
  isFinite _ := true
  decLe := inferInstance
  decLt := inferInstance
  lit q := q
  roundU64 := roundRatU64

/-- The sign and maximum operations of `f64`, which the portfolio, the paper
engine and the hub use besides those of `F64`. -/
class SignedF64 (F : Type) extends F64 F, Neg F, Max F where
  abs : F → F

instance instSignedF64Rat : SignedF64 ℚ where
  abs x := |x|

/-- A symbol name: a Rust `String`, as its characters. -/
abbrev Symbol := List Char

/-- OHLCV candle.  `ts` is an `i64` in the source; the store compares
timestamps and never computes with them. -/
structure Candle (F : Type) where
  ts : Int
  openPrice : F
  high : F
  low : F
  close : F
  volume : F
  deriving DecidableEq, Repr

namespace Candle

variable {F : Type} [F64 F]

/-- All numeric fields are finite and `ts` is non-negative. -/
def isValid (c : Candle F) : Bool :=
  decide (0 ≤ c.ts) && F64.isFinite c.openPrice && F64.isFinite c.high
    && F64.isFinite c.low && F64.isFinite c.close && F64.isFinite c.volume

/-- The candle a fresh ring is filled with. -/
def zero : Candle F :=
  ⟨0, F64.lit 0, F64.lit 0, F64.lit 0, F64.lit 0, F64.lit 0⟩

end Candle

/-- A candle whose prices and volume are all the same. -/
def flatCandle (ts : Int) (price : ℚ) : Candle ℚ :=
  ⟨ts, price, price, price, price, price⟩

end Candlestore
