import Mathlib.Algebra.Order.Field.Basic
import Mathlib.Data.List.Chain
import Mathlib.Tactic.Linarith
import Mathlib.Tactic.NormNum
import Mathlib.Tactic.Positivity
import Candlestore.Candle

/-!
# The candles of the feed handler

`feed_handler` makes up a market: a linear congruential generator moves the price,
and the wall clock dates the candles.  The clock may jump; `next_ts` carries the last
timestamp on.  The clock is read twice for each candle, once to see whether it has
jumped and once inside `next_ts`, and the two readings need not agree.

What the candles are like is stated over exact arithmetic: prices stay at one or
above, each candle opens where the one before closed, the extremes enclose open and
close, and no timestamp is smaller than the one before.
-/

namespace Candlestore.Feed

variable {F : Type}

/-- `i64::MAX`. -/
def i64Max : Int := 2 ^ 63 - 1

/-- `now_nanos`, from the time since the epoch; before the epoch it is zero.  The cast
to `i64` keeps the low 64 bits. -/
def nowNanos (sinceEpoch : Option Nat) : Int := Int.bmod (sinceEpoch.getD 0) (2 ^ 64)

/-- `next_ts`, with the clock reading it makes; the addition saturates. -/
def nextTs (last now : Int) : Int := if last < now then now else min (last + 1) i64Max

/-- What the loop carries from candle to candle. -/
structure Market (F : Type) where
  price : F
  seed : UInt64
  lastTs : Int
  clockSkewCorrections : UInt64

section Generate

variable [SignedF64 F]

/-- `u32::MAX as f64`. -/
def u32MaxF64 : F := F64.lit 4294967295

/-- `next_price`. -/
def nextPrice (prev : F) (seed : UInt64) : F × UInt64 :=
  let seed := seed * 6364136223846793005 + 1442695040888963407
  let u : F := F64.lit (seed >>> 32).toUInt32.toNat
  let change := u / u32MaxF64 * F64.lit (3 / 1000) - F64.lit (15 / 10000)
  (max (prev * (F64.lit 1 + change)) (F64.lit 1), seed)

/-- The price and the seed that `main` starts with. -/
def Market.start : Market F := ⟨F64.lit 50000, 0xDEADBEEF12345678, 0, 0⟩

/-- One iteration's candle; `raw` and `now` are the two readings of the clock. -/
def Market.generate (m : Market F) (raw now : Int) : Candle F × Market F :=
  let openPrice := m.price
  let (close, seed) := nextPrice m.price m.seed
  let r1 : F := F64.lit (seed >>> 32).toUInt32.toNat / u32MaxF64
  let r2 : F := F64.lit (seed &&& 0xFFFFFFFF).toNat / u32MaxF64
  let high := max openPrice close * (F64.lit 1 + r1 * F64.lit (1 / 1000))
  let low := min openPrice close * (F64.lit 1 - r2 * F64.lit (1 / 1000))
  let volume := F64.lit (1 / 2) + r1 * F64.lit 2
  let ts := nextTs m.lastTs now
  let corrections :=
    if raw ≤ m.lastTs then m.clockSkewCorrections + 1 else m.clockSkewCorrections
  (⟨ts, openPrice, high, low, close, volume⟩, ⟨close, seed, ts, corrections⟩)

end Generate

/-- The market goes on from the close and the timestamp of the candle. -/
theorem generate_last [SignedF64 F] (m : Market F) (raw now : Int) :
    (m.generate raw now).1.close = (m.generate raw now).2.price ∧
      (m.generate raw now).1.ts = (m.generate raw now).2.lastTs := ⟨rfl, rfl⟩

/-! ## The timestamps -/

theorem nowNanos_le (sinceEpoch : Option Nat) : nowNanos sinceEpoch ≤ i64Max := by
  have h := Int.bmod_lt (x := (sinceEpoch.getD 0 : Nat)) (Nat.two_pow_pos 64)
  unfold nowNanos i64Max
  omega

/-- A timestamp is later than the last one, or they have run out. -/
theorem nextTs_spec {last now : Int} (hlast : last ≤ i64Max) (hnow : now ≤ i64Max) :
    nextTs last now ≤ i64Max ∧
      (last < nextTs last now ∨ nextTs last now = last ∧ last = i64Max) := by
  unfold nextTs
  split
  · exact ⟨hnow, .inl ‹_›⟩
  · omega

/-! ## The prices -/

/-- What every candle of the feed is like. -/
structure SoundCandle (c : Candle ℚ) : Prop where
  ts_pos : 0 < c.ts
  ts_le : c.ts ≤ i64Max
  openPrice : 1 ≤ c.openPrice
  close : 1 ≤ c.close
  low_pos : 0 < c.low
  low_le : c.low ≤ min c.openPrice c.close
  le_high : max c.openPrice c.close ≤ c.high
  volume_pos : 0 < c.volume

/-- What two candles in a row are like. -/
structure Follows (a b : Candle ℚ) : Prop where
  ts : a.ts < b.ts ∨ b.ts = a.ts ∧ a.ts = i64Max
  openPrice : b.openPrice = a.close
  /-- A move of at most 0.15 percent, or the floor. -/
  move : |b.close - a.close| ≤ a.close * (15 / 10000) ∨ b.close = 1

/-- What holds of the market between two candles. -/
structure MarketInv (m : Market ℚ) : Prop where
  price : 1 ≤ m.price
  ts_nonneg : 0 ≤ m.lastTs
  ts_le : m.lastTs ≤ i64Max

theorem MarketInv.start : MarketInv (Market.start : Market ℚ) where
  price := by
    show (1 : ℚ) ≤ 50000
    norm_num
  ts_nonneg := Int.le_refl 0
  ts_le := by
    show (0 : Int) ≤ i64Max
    decide

/-- A 32-bit word over the greatest one. -/
theorem ratio_mem {n : Nat} (hn : n < 2 ^ 32) :
    0 ≤ (n : ℚ) / 4294967295 ∧ (n : ℚ) / 4294967295 ≤ 1 := by
  constructor
  · positivity
  · rw [div_le_one (by norm_num)]
    have : n ≤ 4294967295 := by omega
    exact_mod_cast this

/-- One move of the price, for a ratio `t`. -/
theorem move_spec {prev t : ℚ} (hprev : 1 ≤ prev) (h0 : 0 ≤ t) (h1 : t ≤ 1) :
    |max (prev * (1 + (t * (3 / 1000) - 15 / 10000))) 1 - prev| ≤ prev * (15 / 10000) ∨
      max (prev * (1 + (t * (3 / 1000) - 15 / 10000))) 1 = 1 := by
  rcases le_total (prev * (1 + (t * (3 / 1000) - 15 / 10000))) 1 with hle | hle
  · exact .inr (max_eq_right hle)
  · left
    rw [max_eq_left hle, abs_le]
    have hup : prev * t ≤ prev := mul_le_of_le_one_right (by linarith) h1
    have hlo : 0 ≤ prev * t := mul_nonneg (by linarith) h0
    constructor <;> linarith

theorem nextPrice_spec {prev : ℚ} (seed : UInt64) (hprev : 1 ≤ prev) :
    1 ≤ (nextPrice prev seed).1 ∧
      (|(nextPrice prev seed).1 - prev| ≤ prev * (15 / 10000) ∨
        (nextPrice prev seed).1 = 1) := by
  refine ⟨le_max_right _ _, ?_⟩
  obtain ⟨hlow, hhigh⟩ := ratio_mem
    ((seed * 6364136223846793005 + 1442695040888963407) >>> 32).toUInt32.toNat_lt
  exact move_spec hprev hlow hhigh

/-- A candle around two prices, for the ratios `r1` and `r2`. -/
theorem extremes_spec {a b r1 r2 : ℚ} (ha : 1 ≤ a) (hb : 1 ≤ b) (h1 : 0 ≤ r1)
    (h2 : 0 ≤ r2) (h2' : r2 ≤ 1) :
    0 < min a b * (1 - r2 * (1 / 1000)) ∧ min a b * (1 - r2 * (1 / 1000)) ≤ min a b ∧
      max a b ≤ max a b * (1 + r1 * (1 / 1000)) := by
  have hmin : 1 ≤ min a b := le_min ha hb
  have hmax : 1 ≤ max a b := ha.trans (le_max_left a b)
  refine ⟨mul_pos (by linarith) (by linarith), ?_, ?_⟩
  · exact mul_le_of_le_one_right (by linarith) (by linarith)
  · exact le_mul_of_one_le_right (by linarith) (by linarith)

/-- The next candle is sound and leaves the market sound. -/
theorem MarketInv.generate {m : Market ℚ} (h : MarketInv m) (raw : Int) {now : Int}
    (hnow : now ≤ i64Max) :
    MarketInv (m.generate raw now).2 ∧ SoundCandle (m.generate raw now).1 := by
  obtain ⟨hle, hlater⟩ := nextTs_spec h.ts_le hnow
  obtain ⟨hclose, -⟩ := nextPrice_spec m.seed h.price
  have hpos : 0 < nextTs m.lastTs now := by
    have := h.ts_nonneg
    have hmax : (0 : Int) < i64Max := by decide
    omega
  obtain ⟨hr1, hr1'⟩ := ratio_mem ((nextPrice m.price m.seed).2 >>> 32).toUInt32.toNat_lt
  have hword : ((nextPrice m.price m.seed).2 &&& 0xFFFFFFFF).toNat < 2 ^ 32 := by
    rw [UInt64.toNat_and]
    exact Nat.lt_of_le_of_lt Nat.and_le_right (by decide)
  obtain ⟨hr2, hr2'⟩ := ratio_mem hword
  obtain ⟨hlow, hlow', hhigh⟩ := extremes_spec h.price hclose hr1 hr2 hr2'
  refine ⟨⟨hclose, hpos.le, hle⟩, ?_⟩
  exact {
    ts_pos := hpos
    ts_le := hle
    openPrice := h.price
    close := hclose
    low_pos := hlow
    low_le := hlow'
    le_high := hhigh
    volume_pos := by
      show (0 : ℚ) < 1 / 2 + _ * 2
      positivity }

/-- The next candle follows the last one. -/
theorem MarketInv.follows {m : Market ℚ} (h : MarketInv m) {a : Candle ℚ}
    (hclose : a.close = m.price) (hts : a.ts = m.lastTs) (raw : Int) {now : Int}
    (hnow : now ≤ i64Max) : Follows a (m.generate raw now).1 := by
  obtain ⟨-, hlater⟩ := nextTs_spec h.ts_le hnow
  obtain ⟨-, hmove⟩ := nextPrice_spec m.seed h.price
  refine ⟨?_, hclose.symm, ?_⟩
  · rw [hts]
    exact hlater
  · rw [hclose]
    exact hmove

end Candlestore.Feed
