import Mathlib.Algebra.BigOperators.Group.Finset.Basic
import Mathlib.Algebra.Order.Field.Basic
import Mathlib.Data.List.AList
import Mathlib.Tactic.FieldSimp
import Mathlib.Tactic.Linarith
import Mathlib.Tactic.Ring
import Candlestore.Matching.Order

/-!
# The signed-position portfolio

`Portfolio::apply` books one fill: it blends the average cost when a position
is opened or added to, realizes profit when one is reduced, and flips a
position when the fill is larger than it.  Two tolerance rules then drop
quantity: a leftover that is dust relative to the fill does not flip the
position, and a position that is dust relative to the fill is snapped to flat.

The book value of the portfolio is `cash + Σ position * cost - realized`.  A
fill keeps it up to what the two rules drop, so over any sequence of fills it
stays within `1e-9 * Σ qty * max |price|` of the initial cash.

## Main results

* `Leg.sell_eq_mirror`: sells are buys of the mirrored position.
* `Leg.Booked.of_buy`, `Leg.booked`: what one fill does to the book value.
* `Portfolio.applyAll_accounting`: the accounting identity over any sequence.
-/

namespace Candlestore.Matching

open Candlestore

/-- An entry of the trade log. -/
structure Trade (F : Type) where
  orderId : Nat
  symbol : Symbol
  side : Side
  price : F
  qty : F
  ts : Int
  deriving DecidableEq, Repr

/-- Signed-position average-cost portfolio. -/
structure Portfolio (F : Type) where
  cash : F
  positions : AList (fun _ : Symbol => F)
  avgCosts : AList (fun _ : Symbol => F)
  trades : List (Trade F)
  realizedPnl : F

/-- The numbers a fill rewrites: the position and the average cost of its
symbol, and the realized profit and cash of the portfolio. -/
structure Leg (F : Type) where
  pos : F
  cost : F
  realizedPnl : F
  cash : F

section Model

variable {F : Type} [SignedF64 F]

namespace Leg

/-- The `Side::Buy` arm of `apply`. -/
def buy (l : Leg F) (q p : F) : Leg F :=
  let l' :=
    if F64.lit 0 ≤ l.pos then
      { l with cost := (l.pos * l.cost + q * p) / (l.pos + q), pos := l.pos + q }
    else
      let covered := min q (-l.pos)
      let reduced := { l with
        realizedPnl := l.realizedPnl + (l.cost - p) * covered
        pos := l.pos + covered }
      let leftover := q - covered
      -- Oversized buy flips short to long at the fill price.
      if !qtyIsZero leftover q then { reduced with pos := leftover, cost := p }
      else reduced
  { l' with cash := l'.cash - q * p }

/-- The `Side::Sell` arm of `apply`. -/
def sell (l : Leg F) (q p : F) : Leg F :=
  let l' :=
    if l.pos ≤ F64.lit 0 then
      { l with cost := (-l.pos * l.cost + q * p) / (-l.pos + q), pos := l.pos - q }
    else
      let closed := min q l.pos
      let reduced := { l with
        realizedPnl := l.realizedPnl + (p - l.cost) * closed
        pos := l.pos - closed }
      let leftover := q - closed
      -- Oversell flips long to short at the fill price.
      if !qtyIsZero leftover q then { reduced with pos := -leftover, cost := p }
      else reduced
  { l' with cash := l'.cash + q * p }

/-- A fill on the side it is on. -/
def trade (l : Leg F) (side : Side) (q p : F) : Leg F :=
  match side with
  | .buy => l.buy q p
  | .sell => l.sell q p

/-- Flat within tolerance relative to the fill size snaps to exactly flat. -/
def snap (l : Leg F) (q : F) : Leg F :=
  if SignedF64.abs l.pos ≤ q * qtyRelTol then
    { l with pos := F64.lit 0, cost := F64.lit 0 }
  else l

end Leg

namespace Portfolio

/-- `new`: cash and no position. -/
def new (initialCash : F) : Portfolio F := ⟨initialCash, ∅, ∅, [], F64.lit 0⟩

/-- `position`, zero for a symbol that never traded. -/
def position (pf : Portfolio F) (symbol : Symbol) : F :=
  (pf.positions.lookup symbol).getD (F64.lit 0)

/-- `avg_cost`, zero for a symbol that never traded. -/
def avgCost (pf : Portfolio F) (symbol : Symbol) : F :=
  (pf.avgCosts.lookup symbol).getD (F64.lit 0)

/-- `entry(symbol).or_insert(0.0)` on both maps, with the two totals. -/
def leg (pf : Portfolio F) (symbol : Symbol) : Leg F :=
  ⟨pf.position symbol, pf.avgCost symbol, pf.realizedPnl, pf.cash⟩

/-- `Portfolio::apply`. -/
def apply (pf : Portfolio F) (fill : Fill F) : Portfolio F :=
  let l := ((pf.leg fill.symbol).trade fill.side fill.qty fill.price).snap fill.qty
  { cash := l.cash
    positions := pf.positions.insert fill.symbol l.pos
    avgCosts := pf.avgCosts.insert fill.symbol l.cost
    trades := pf.trades ++
      [⟨fill.orderId, fill.symbol, fill.side, fill.price, fill.qty, fill.ts⟩]
    realizedPnl := l.realizedPnl }

/-- `Portfolio::apply` folded over fills in their order. -/
def applyAll (pf : Portfolio F) (fills : List (Fill F)) : Portfolio F :=
  fills.foldl apply pf

/-- `unrealized_pnl` at a price. -/
def unrealizedPnl (pf : Portfolio F) (symbol : Symbol) (currentPrice : F) : F :=
  (currentPrice - pf.avgCost symbol) * pf.position symbol

/-- `total_pnl`: realized, and unrealized for the symbols with a price. -/
def totalPnl (pf : Portfolio F) (prices : AList (fun _ : Symbol => F)) : F :=
  pf.realizedPnl +
    (prices.entries.map fun e => pf.unrealizedPnl e.1 e.2).foldl (· + ·) (F64.lit 0)

end Portfolio

end Model

/-! ## One fill -/

theorem qtyRelTol_nonneg : (0 : ℚ) ≤ qtyRelTol := by
  norm_num [qtyRelTol, F64.lit]

theorem qtyRelTol_lt_one : (qtyRelTol : ℚ) < 1 := by
  norm_num [qtyRelTol, F64.lit]

namespace Leg

/-- What the leg contributes to the book value of the portfolio. -/
def value (l : Leg ℚ) : ℚ := l.cash + l.pos * l.cost - l.realizedPnl

/-- The same leg seen from the other side of every trade. -/
def mirror (l : Leg ℚ) : Leg ℚ := ⟨-l.pos, l.cost, -l.realizedPnl, -l.cash⟩

@[simp] theorem mirror_pos (l : Leg ℚ) : l.mirror.pos = -l.pos := rfl

@[simp] theorem mirror_cost (l : Leg ℚ) : l.mirror.cost = l.cost := rfl

@[simp] theorem mirror_mirror (l : Leg ℚ) : l.mirror.mirror = l := by
  simp [mirror]

theorem mirror_value (l : Leg ℚ) : l.mirror.value = -l.value := by
  simp only [value, mirror]
  ring

/-- Buys and sells are exact mirrors over a signed position. -/
theorem sell_eq_mirror (l : Leg ℚ) (q p : ℚ) :
    l.sell q p = (l.mirror.buy q p).mirror := by
  have hpos : (F64.lit 0 : ℚ) ≤ l.mirror.pos ↔ l.pos ≤ (F64.lit 0 : ℚ) := by
    simp [F64.lit]
  have hneg : -l.mirror.pos = l.pos := neg_neg _
  unfold sell buy
  simp only [hpos, hneg]
  split
  · simp only [mirror, mk.injEq, true_and]
    refine ⟨?_, ?_, ?_⟩ <;> ring
  · split
    · simp only [mirror, mk.injEq, true_and]
      refine ⟨?_, ?_⟩ <;> ring
    · simp only [mirror, mk.injEq, true_and]
      refine ⟨?_, ?_, ?_⟩ <;> ring

theorem snap_mirror (l : Leg ℚ) (q : ℚ) : l.mirror.snap q = (l.snap q).mirror := by
  have habs : SignedF64.abs l.mirror.pos = SignedF64.abs l.pos := abs_neg l.pos
  unfold snap
  rw [habs]
  split
  · simp [mirror, F64.lit]
  · rfl

/-- The four things a buy can do: add to a long, cover part of a short, flip a
short, or cover it and drop what is left. -/
theorem buy_cases (l : Leg ℚ) {q : ℚ} (p : ℚ) (hq : 0 < q) :
    (0 ≤ l.pos ∧ l.buy q p =
      ⟨l.pos + q, (l.pos * l.cost + q * p) / (l.pos + q), l.realizedPnl,
        l.cash - q * p⟩) ∨
    (l.pos < 0 ∧ q ≤ -l.pos ∧ l.buy q p =
      ⟨l.pos + q, l.cost, l.realizedPnl + (l.cost - p) * q, l.cash - q * p⟩) ∨
    (l.pos < 0 ∧ q * qtyRelTol < q + l.pos ∧ l.buy q p =
      ⟨q + l.pos, p, l.realizedPnl + (l.cost - p) * -l.pos, l.cash - q * p⟩) ∨
    (l.pos < 0 ∧ 0 < q + l.pos ∧ q + l.pos ≤ q * qtyRelTol ∧ l.buy q p =
      ⟨0, l.cost, l.realizedPnl + (l.cost - p) * -l.pos, l.cash - q * p⟩) := by
  have htol : (0 : ℚ) ≤ q * qtyRelTol := mul_nonneg hq.le qtyRelTol_nonneg
  unfold buy
  by_cases hlong : (F64.lit 0 : ℚ) ≤ l.pos
  · left
    exact ⟨hlong, by rw [if_pos hlong]⟩
  · have hshort : l.pos < 0 := not_le.1 hlong
    rw [if_neg hlong]
    right
    by_cases hcover : q ≤ -l.pos
    · left
      have hzero : qtyIsZero 0 q = true := decide_eq_true htol
      simp [hzero, hshort, hcover]
    · right
      have hover : min q (-l.pos) = -l.pos := min_eq_right (not_le.1 hcover).le
      have hleft : q - -l.pos = q + l.pos := sub_neg_eq_add q l.pos
      by_cases hdust : q + l.pos ≤ q * qtyRelTol
      · right
        have hzero : qtyIsZero (q + l.pos) q = true := decide_eq_true hdust
        have hpos : 0 < q + l.pos := by linarith [not_le.1 hcover]
        simp [hover, hleft, hzero, hshort, hdust, hpos]
      · left
        have hzero : qtyIsZero (q + l.pos) q = false := decide_eq_false hdust
        simp [hover, hleft, hzero, hshort, not_le.1 hdust]

theorem snap_of_dust {l : Leg ℚ} {q : ℚ} (h : |l.pos| ≤ q * qtyRelTol) :
    l.snap q = ⟨0, 0, l.realizedPnl, l.cash⟩ :=
  if_pos h

theorem snap_of_open {l : Leg ℚ} {q : ℚ} (h : q * qtyRelTol < |l.pos|) : l.snap q = l :=
  if_neg (not_le.2 h)

/-- A position that is flat after the snap has no cost. -/
theorem snap_flat {l : Leg ℚ} {q : ℚ} (hq : 0 < q) (h : (l.snap q).pos = 0) :
    (l.snap q).cost = 0 := by
  rcases le_or_gt |l.pos| (q * qtyRelTol) with hdust | hopen
  · rw [snap_of_dust hdust]
  · have htol : 0 ≤ q * (qtyRelTol : ℚ) := mul_nonneg hq.le qtyRelTol_nonneg
    rw [snap_of_open hopen] at h
    rw [h, abs_zero] at hopen
    exact absurd hopen (not_lt.2 htol)

/-- The fill is larger than the position it reduces, and what is left of it is
dropped by the leftover rule. -/
def DropsLeftover (l : Leg ℚ) (side : Side) (q : ℚ) : Prop :=
  match side with
  | .buy => l.pos < 0 ∧ qtyIsZero (q - min q (-l.pos)) q ∧ q - min q (-l.pos) ≠ 0
  | .sell => 0 < l.pos ∧ qtyIsZero (q - min q l.pos) q ∧ q - min q l.pos ≠ 0

/-- The fill leaves a position that is not zero and is snapped to flat. -/
def SnapsOpen (l : Leg ℚ) (side : Side) (q p : ℚ) : Prop :=
  |(l.trade side q p).pos| ≤ q * qtyRelTol ∧ (l.trade side q p).pos ≠ 0

/-- One of the two tolerance rules drops a remainder that is not zero. -/
def DropsDust (l : Leg ℚ) (side : Side) (q p : ℚ) : Prop :=
  l.DropsLeftover side q ∨ l.SnapsOpen side q p

theorem dropsDust_mirror (l : Leg ℚ) (q p : ℚ) :
    l.mirror.DropsDust .buy q p ↔ l.DropsDust .sell q p := by
  simp [DropsDust, DropsLeftover, SnapsOpen, trade, sell_eq_mirror]

/-- What booking a fill of quantity `q` does to a leg: the value drifts by what
the tolerance rules drop, valued at a price within `bound`. -/
structure Booked (l l' : Leg ℚ) (q bound : ℚ) (drops : Prop) : Prop where
  drift : |l'.value - l.value| ≤ q * qtyRelTol * bound
  exact : ¬drops → l'.value = l.value
  cost_le : |l'.cost| ≤ bound

theorem Booked.of_mirror {l l' : Leg ℚ} {q bound : ℚ} {drops : Prop}
    (h : Booked l.mirror l'.mirror q bound drops) : Booked l l' q bound drops := by
  have hdrift : l'.mirror.value - l.mirror.value = -(l'.value - l.value) := by
    rw [mirror_value, mirror_value]
    ring
  refine { drift := ?_, exact := ?_, cost_le := h.cost_le }
  · rw [← abs_neg, ← hdrift]
    exact h.drift
  · intro hno
    have hval := h.exact hno
    rw [mirror_value, mirror_value] at hval
    exact neg_injective hval

/-- A remainder that is dust relative to the fill is worth at most the fill's
share of the drift. -/
theorem abs_mul_le_dust {x c q bound : ℚ} (hx : |x| ≤ q * qtyRelTol) (hc : |c| ≤ bound) :
    |x * c| ≤ q * qtyRelTol * bound := by
  rw [abs_mul]
  exact mul_le_mul hx hc (abs_nonneg c) ((abs_nonneg x).trans hx)

/-- The blended cost lies between the old cost and the fill price. -/
theorem blend_mem {a c q p : ℚ} (ha : 0 ≤ a) (hq : 0 < q) :
    min c p ≤ (a * c + q * p) / (a + q) ∧ (a * c + q * p) / (a + q) ≤ max c p := by
  have hsum : 0 < a + q := by linarith
  constructor
  · rw [le_div_iff₀ hsum]
    calc min c p * (a + q) = a * min c p + q * min c p := by ring
      _ ≤ a * c + q * p := by
        gcongr
        · exact min_le_left c p
        · exact min_le_right c p
  · rw [div_le_iff₀ hsum]
    calc a * c + q * p ≤ a * max c p + q * max c p := by
          gcongr
          · exact le_max_left c p
          · exact le_max_right c p
      _ = max c p * (a + q) := by ring

theorem abs_blend_le {a c q p bound : ℚ} (ha : 0 ≤ a) (hq : 0 < q) (hc : |c| ≤ bound)
    (hp : |p| ≤ bound) : |(a * c + q * p) / (a + q)| ≤ bound := by
  obtain ⟨hlow, hhigh⟩ := blend_mem (c := c) (p := p) ha hq
  rw [abs_le] at hc hp ⊢
  exact ⟨(le_min hc.1 hp.1).trans hlow, hhigh.trans (max_le hc.2 hp.2)⟩

/-- A trade that keeps the value and leaves more than dust is not snapped. -/
theorem Booked.of_open {l t : Leg ℚ} {q bound : ℚ} {drops : Prop} (hq : 0 < q)
    (hopen : q * qtyRelTol < |t.pos|) (hval : t.value = l.value)
    (hcost : |t.cost| ≤ bound) : Booked l (t.snap q) q bound drops := by
  have htol : 0 ≤ q * (qtyRelTol : ℚ) := mul_nonneg hq.le qtyRelTol_nonneg
  rw [snap_of_open hopen]
  refine { drift := ?_, exact := fun _ => hval, cost_le := hcost }
  rw [hval, sub_self, abs_zero]
  exact mul_nonneg htol ((abs_nonneg _).trans hcost)

/-- A trade that leaves dust is snapped to flat; `x * c` is what is dropped. -/
theorem Booked.of_dust {l t : Leg ℚ} {q bound x c : ℚ} {drops : Prop}
    (hdust : |t.pos| ≤ q * qtyRelTol) (hval : (t.snap q).value = l.value - x * c)
    (hx : |x| ≤ q * qtyRelTol) (hc : |c| ≤ bound) (hno : ¬drops → x = 0) :
    Booked l (t.snap q) q bound drops := by
  refine { drift := ?_, exact := ?_, cost_le := ?_ }
  · rw [hval, sub_sub_cancel_left, abs_neg]
    exact abs_mul_le_dust hx hc
  · intro h
    rw [hval, hno h, zero_mul, sub_zero]
  · rw [snap_of_dust hdust, abs_zero]
    exact (abs_nonneg c).trans hc

theorem booked_buy {l : Leg ℚ} {q p bound : ℚ} (hq : 0 < q) (hcost : |l.cost| ≤ bound)
    (hprice : |p| ≤ bound) :
    Booked l ((l.buy q p).snap q) q bound (l.DropsDust .buy q p) := by
  have htol : 0 ≤ q * (qtyRelTol : ℚ) := mul_nonneg hq.le qtyRelTol_nonneg
  rcases buy_cases l p hq with ⟨hlong, heq⟩ | ⟨hshort, hcover, heq⟩ |
    ⟨hshort, hflip, heq⟩ | ⟨hshort, hover, hdust, heq⟩
  · -- Opening or adding: the new position is at least the fill.
    have hsum : 0 < l.pos + q := by linarith
    apply Booked.of_open hq
    · have hlt : q * qtyRelTol < q := mul_lt_of_lt_one_right hq qtyRelTol_lt_one
      rw [heq, abs_of_pos hsum]
      linarith
    · rw [heq]
      simp only [value]
      field_simp
      ring
    · rw [heq]
      exact abs_blend_le hlong hq hcost hprice
  · -- Covering part of a short: the rest of it is snapped if it is dust.
    have hval : (l.buy q p).value = l.value := by
      rw [heq]
      simp only [value]
      ring
    have hc : |(l.buy q p).cost| ≤ bound := by
      rw [heq]
      exact hcost
    by_cases hsnap : |(l.buy q p).pos| ≤ q * qtyRelTol
    · refine Booked.of_dust hsnap ?_ hsnap hc ?_
      · rw [snap_of_dust hsnap, ← hval]
        simp only [value]
        ring
      · intro hno
        by_contra hne
        exact hno (Or.inr ⟨hsnap, hne⟩)
    · exact Booked.of_open hq (not_le.1 hsnap) hval hc
  · -- Flipping: the leftover is more than dust.
    apply Booked.of_open hq
    · rw [heq, abs_of_pos (htol.trans_lt hflip)]
      exact hflip
    · rw [heq]
      simp only [value]
      ring
    · rw [heq]
      exact hprice
  · -- Covering the whole short: the leftover is dropped.
    have hsnap : |(l.buy q p).pos| ≤ q * qtyRelTol := by
      rw [heq, abs_zero]
      exact htol
    refine Booked.of_dust (x := q + l.pos) (c := p) hsnap ?_ ?_ hprice ?_
    · rw [snap_of_dust hsnap, heq]
      simp only [value]
      ring
    · rwa [abs_of_pos hover]
    · intro hno
      refine absurd (Or.inl ⟨hshort, ?_⟩) hno
      rw [min_eq_right (by linarith : -l.pos ≤ q), sub_neg_eq_add]
      exact ⟨decide_eq_true hdust, hover.ne'⟩

/-- Booking a fill on either side. -/
theorem booked {l : Leg ℚ} {q p bound : ℚ} (side : Side) (hq : 0 < q)
    (hcost : |l.cost| ≤ bound) (hprice : |p| ≤ bound) :
    Booked l ((l.trade side q p).snap q) q bound (l.DropsDust side q p) := by
  cases side with
  | buy => exact booked_buy hq hcost hprice
  | sell =>
      apply Booked.of_mirror
      have hbuy : Booked l.mirror ((l.mirror.buy q p).snap q) q bound
          (l.mirror.DropsDust .buy q p) := booked_buy hq hcost hprice
      rw [dropsDust_mirror] at hbuy
      rw [← snap_mirror]
      show Booked l.mirror ((l.sell q p).mirror.snap q) q bound _
      rw [sell_eq_mirror, mirror_mirror]
      exact hbuy

end Leg

/-! ## The whole portfolio -/

/-- Changing one value of a function of finite support changes its sum by the
difference. -/
theorem sum_insert_of_changed {κ : Type} [DecidableEq κ] {S : Finset κ} {k : κ}
    {g g' : κ → ℚ} (hS : ∀ s, s ∉ S → g s = 0) (hg : ∀ s, s ≠ k → g' s = g s) :
    ∑ s ∈ insert k S, g' s = ∑ s ∈ S, g s + (g' k - g k) := by
  have hsub : ∑ s ∈ S, g s = ∑ s ∈ insert k S, g s :=
    Finset.sum_subset (Finset.subset_insert k S) fun s _ hs => hS s hs
  have hdiff : ∑ s ∈ insert k S, (g' s - g s) = g' k - g k := by
    apply Finset.sum_eq_single_of_mem k (Finset.mem_insert_self k S)
    intro s _ hs
    rw [hg s hs, sub_self]
  rw [hsub, ← hdiff, Finset.sum_sub_distrib]
  ring

namespace Portfolio

/-- The entry value of the open positions. -/
def bookCost (pf : Portfolio ℚ) : ℚ :=
  ∑ s ∈ pf.positions.keys.toFinset, pf.position s * pf.avgCost s

/-- The open positions valued at the given prices. -/
def markValue (pf : Portfolio ℚ) (prices : AList (fun _ : Symbol => ℚ)) : ℚ :=
  (prices.entries.map fun e => pf.position e.1 * e.2).sum

/-- Every open symbol has a price. -/
def Covers (pf : Portfolio ℚ) (prices : AList (fun _ : Symbol => ℚ)) : Prop :=
  ∀ s, pf.position s ≠ 0 → s ∈ prices

/-- Cash and entry value of the positions, less the profit booked so far. -/
def bookValue (pf : Portfolio ℚ) : ℚ := pf.cash + pf.bookCost - pf.realizedPnl

/-- Booking the fill drops dust. -/
def DropsDust (pf : Portfolio ℚ) (fill : Fill ℚ) : Prop :=
  (pf.leg fill.symbol).DropsDust fill.side fill.qty fill.price

/-- The divisor of the blended cost when the fill opens or adds to a position. -/
def DividesByZero (pf : Portfolio ℚ) (fill : Fill ℚ) : Prop :=
  match fill.side with
  | .buy => 0 ≤ pf.position fill.symbol ∧ pf.position fill.symbol + fill.qty = 0
  | .sell => pf.position fill.symbol ≤ 0 ∧ -pf.position fill.symbol + fill.qty = 0

/-- The leg of a fill after it is booked. -/
def legAfter (pf : Portfolio ℚ) (fill : Fill ℚ) : Leg ℚ :=
  ((pf.leg fill.symbol).trade fill.side fill.qty fill.price).snap fill.qty

theorem position_apply (pf : Portfolio ℚ) (fill : Fill ℚ) (s : Symbol) :
    (pf.apply fill).position s =
      if s = fill.symbol then (pf.legAfter fill).pos else pf.position s := by
  unfold position apply
  split
  · next h => rw [h, AList.lookup_insert]; rfl
  · next h => rw [AList.lookup_insert_ne h]

theorem avgCost_apply (pf : Portfolio ℚ) (fill : Fill ℚ) (s : Symbol) :
    (pf.apply fill).avgCost s =
      if s = fill.symbol then (pf.legAfter fill).cost else pf.avgCost s := by
  unfold avgCost apply
  split
  · next h => rw [h, AList.lookup_insert]; rfl
  · next h => rw [AList.lookup_insert_ne h]

theorem position_eq_zero {pf : Portfolio ℚ} {s : Symbol}
    (h : s ∉ pf.positions.keys.toFinset) : pf.position s = 0 := by
  have hnone : pf.positions.lookup s = none := by
    apply AList.lookup_eq_none.2
    simpa [AList.mem_keys] using h
  rw [position, hnone]
  rfl

/-- Booking a fill changes the book value by what it changes its own leg. -/
theorem bookValue_apply (pf : Portfolio ℚ) (fill : Fill ℚ) :
    (pf.apply fill).bookValue =
      pf.bookValue + ((pf.legAfter fill).value - (pf.leg fill.symbol).value) := by
  have hkeys : (pf.apply fill).positions.keys.toFinset =
      insert fill.symbol pf.positions.keys.toFinset := by
    ext s
    by_cases hs : s = fill.symbol
    · simp [apply, AList.keys_insert, hs]
    · simp [apply, AList.keys_insert, hs]
  have hsum : (pf.apply fill).bookCost = pf.bookCost +
      ((pf.legAfter fill).pos * (pf.legAfter fill).cost -
        pf.position fill.symbol * pf.avgCost fill.symbol) := by
    rw [bookCost, hkeys]
    rw [sum_insert_of_changed (g := fun s => pf.position s * pf.avgCost s)]
    · simp only [position_apply, avgCost_apply, if_true]
      rfl
    · intro s hs
      rw [position_eq_zero hs, zero_mul]
    · intro s hs
      rw [position_apply, avgCost_apply, if_neg hs, if_neg hs]
  rw [bookValue, hsum, bookValue]
  show (pf.legAfter fill).cash + _ - (pf.legAfter fill).realizedPnl = _
  simp only [Leg.value, leg]
  ring

/-- Costs stay within the largest price traded. -/
structure CostInv (pf : Portfolio ℚ) (bound : ℚ) : Prop where
  cost_le : ∀ s, |pf.avgCost s| ≤ bound

theorem CostInv.new (initialCash : ℚ) {bound : ℚ} (hbound : 0 ≤ bound) :
    CostInv (Portfolio.new initialCash) bound := by
  refine { cost_le := fun s => ?_ }
  have hzero : (Portfolio.new initialCash).avgCost s = 0 := rfl
  rwa [hzero, abs_zero]

section Step

variable {pf : Portfolio ℚ} {fill : Fill ℚ} {bound : ℚ} (inv : pf.CostInv bound)
  (hq : 0 < fill.qty) (hp : |fill.price| ≤ bound)
include inv hq hp

theorem CostInv.booked :
    (pf.leg fill.symbol).Booked (pf.legAfter fill) fill.qty bound (pf.DropsDust fill) :=
  Leg.booked fill.side hq (inv.cost_le fill.symbol) hp

theorem CostInv.apply : (pf.apply fill).CostInv bound := by
  refine { cost_le := fun s => ?_ }
  rw [avgCost_apply]
  split
  · exact (inv.booked hq hp).cost_le
  · exact inv.cost_le s

end Step

theorem applyAll_cons (pf : Portfolio ℚ) (f : Fill ℚ) (fills : List (Fill ℚ)) :
    pf.applyAll (f :: fills) = (pf.apply f).applyAll fills := rfl

/-- Over any fills the book value drifts by at most the dust of their total
quantity. -/
theorem CostInv.applyAll_drift {pf : Portfolio ℚ} {fills : List (Fill ℚ)} {bound : ℚ}
    (inv : pf.CostInv bound) (hq : ∀ f ∈ fills, 0 < f.qty)
    (hp : ∀ f ∈ fills, |f.price| ≤ bound) :
    |(pf.applyAll fills).bookValue - pf.bookValue| ≤
      (fills.map Fill.qty).sum * qtyRelTol * bound := by
  induction fills generalizing pf with
  | nil => simp [applyAll]
  | cons f fills ih =>
      have hqf := hq f List.mem_cons_self
      have hpf := hp f List.mem_cons_self
      have hrest := ih (inv.apply hqf hpf) (fun x hx => hq x (List.mem_cons_of_mem f hx))
        (fun x hx => hp x (List.mem_cons_of_mem f hx))
      have hstep := (inv.booked hqf hpf).drift
      rw [bookValue_apply] at hrest
      rw [applyAll_cons, List.map_cons, List.sum_cons, add_mul, add_mul]
      calc |((pf.apply f).applyAll fills).bookValue - pf.bookValue|
          = |(((pf.apply f).applyAll fills).bookValue -
              (pf.bookValue + ((pf.legAfter f).value - (pf.leg f.symbol).value))) +
              ((pf.legAfter f).value - (pf.leg f.symbol).value)| := by ring_nf
        _ ≤ _ := abs_add_le _ _
        _ ≤ (fills.map Fill.qty).sum * qtyRelTol * bound + f.qty * qtyRelTol * bound :=
            add_le_add hrest hstep
        _ = _ := add_comm _ _

/-- Fills that drop no dust keep the book value. -/
theorem CostInv.applyAll_exact {pf : Portfolio ℚ} {fills : List (Fill ℚ)} {bound : ℚ}
    (inv : pf.CostInv bound) (hq : ∀ f ∈ fills, 0 < f.qty)
    (hp : ∀ f ∈ fills, |f.price| ≤ bound)
    (hclean : ∀ pre f post, fills = pre ++ f :: post → ¬(pf.applyAll pre).DropsDust f) :
    (pf.applyAll fills).bookValue = pf.bookValue := by
  induction fills generalizing pf with
  | nil => rfl
  | cons f fills ih =>
      have hqf := hq f List.mem_cons_self
      have hpf := hp f List.mem_cons_self
      have hstep : (pf.apply f).bookValue = pf.bookValue := by
        rw [bookValue_apply, (inv.booked hqf hpf).exact (hclean [] f fills rfl),
          sub_self, add_zero]
      rw [applyAll_cons, ← hstep]
      apply ih (inv.apply hqf hpf) (fun x hx => hq x (List.mem_cons_of_mem f hx))
        (fun x hx => hp x (List.mem_cons_of_mem f hx))
      intro pre x post heq
      have hx := hclean (f :: pre) x post (by rw [heq]; rfl)
      exact hx

/-- A fill that opens or adds to a position divides by the new position. -/
theorem not_dividesByZero (pf : Portfolio ℚ) {fill : Fill ℚ} (hq : 0 < fill.qty) :
    ¬pf.DividesByZero fill := by
  unfold DividesByZero
  split
  · rintro ⟨hpos, hsum⟩
    linarith
  · rintro ⟨hpos, hsum⟩
    linarith

/-- The entry value of the positions can be added up over any prices that cover
them. -/
theorem Covers.sum_cost {pf : Portfolio ℚ} {prices : AList (fun _ : Symbol => ℚ)}
    (hcov : pf.Covers prices) :
    (prices.entries.map fun e => pf.position e.1 * pf.avgCost e.1).sum =
      pf.bookCost := by
  have hkeys : (prices.entries.map fun e => pf.position e.1 * pf.avgCost e.1) =
      prices.keys.map fun s => pf.position s * pf.avgCost s := by
    rw [AList.keys, List.keys, List.map_map]
    rfl
  rw [hkeys, ← List.sum_toFinset _ prices.keys_nodup, bookCost]
  trans ∑ s ∈ prices.keys.toFinset ∪ pf.positions.keys.toFinset,
    pf.position s * pf.avgCost s
  · apply Finset.sum_subset Finset.subset_union_left
    intro s _ hs
    by_contra hne
    apply hs
    rw [List.mem_toFinset]
    exact AList.mem_keys.1 (hcov s (left_ne_zero_of_mul hne))
  · symm
    apply Finset.sum_subset Finset.subset_union_right
    intro s _ hs
    rw [position_eq_zero hs, zero_mul]

/-- Marking the positions to any prices that cover them adds the unrealized
profit to their entry value. -/
theorem Covers.equity_eq {pf : Portfolio ℚ} {prices : AList (fun _ : Symbol => ℚ)}
    (hcov : pf.Covers prices) :
    pf.cash + pf.markValue prices - pf.totalPnl prices = pf.bookValue := by
  have hsplit : ∀ l : List (Σ _ : Symbol, ℚ),
      (l.map fun e => pf.unrealizedPnl e.1 e.2).sum =
        (l.map fun e => pf.position e.1 * e.2).sum -
          (l.map fun e => pf.position e.1 * pf.avgCost e.1).sum := by
    intro l
    induction l with
    | nil => simp
    | cons e l ih =>
        rw [List.map_cons, List.sum_cons, ih]
        simp only [List.map_cons, List.sum_cons, unrealizedPnl]
        ring
  have htotal : pf.totalPnl prices =
      pf.realizedPnl + (pf.markValue prices - pf.bookCost) := by
    rw [totalPnl, markValue, ← hcov.sum_cost, ← hsplit, List.sum_eq_foldl]
    rfl
  rw [htotal, bookValue]
  ring

/-- The largest absolute price of the fills. -/
def maxAbsPrice (fills : List (Fill ℚ)) : ℚ := (fills.map fun f => |f.price|).foldr max 0

theorem maxAbsPrice_nonneg (fills : List (Fill ℚ)) : 0 ≤ maxAbsPrice fills := by
  induction fills with
  | nil => exact le_rfl
  | cons f fills ih => exact ih.trans (le_max_right _ _)

theorem abs_price_le_max {fills : List (Fill ℚ)} :
    ∀ f ∈ fills, |f.price| ≤ maxAbsPrice fills := by
  induction fills with
  | nil => exact fun f hf => by cases hf
  | cons g fills ih =>
      intro f hf
      rcases List.mem_cons.1 hf with rfl | hf
      · exact le_max_left _ _
      · exact (ih f hf).trans (le_max_right _ _)

theorem bookValue_new (initialCash : ℚ) : (new initialCash).bookValue = initialCash := by
  simp [bookValue, bookCost, new, F64.lit]

/-- The accounting identity.  After any fills of positive quantity, cash and
entry value less realized profit is the initial cash up to the dust of the
quantity traded; so is the equity at any prices less the total profit.  Without
dropped dust both are exact, and no fill divides by zero. -/
theorem applyAll_accounting (initialCash : ℚ) (fills : List (Fill ℚ))
    (hqty : ∀ f ∈ fills, 0 < f.qty) :
    let pf := (new initialCash).applyAll fills
    let dust := 1 / 1000000000 * (fills.map Fill.qty).sum * maxAbsPrice fills
    |pf.cash + pf.bookCost - pf.realizedPnl - initialCash| ≤ dust ∧
    (∀ prices, pf.Covers prices →
      |pf.cash + pf.markValue prices - (initialCash + pf.totalPnl prices)| ≤ dust) ∧
    ((∀ pre f post, fills = pre ++ f :: post →
        ¬((new initialCash).applyAll pre).DropsDust f) →
      pf.cash + pf.bookCost - pf.realizedPnl = initialCash ∧
      ∀ prices, pf.Covers prices →
        pf.cash + pf.markValue prices = initialCash + pf.totalPnl prices) ∧
    ∀ pre f post, fills = pre ++ f :: post →
      ¬((new initialCash).applyAll pre).DividesByZero f := by
  intro pf dust
  have inv : (new initialCash).CostInv (maxAbsPrice fills) :=
    CostInv.new initialCash (maxAbsPrice_nonneg fills)
  have hdrift : |pf.bookValue - initialCash| ≤ dust := by
    have h := inv.applyAll_drift hqty abs_price_le_max
    rw [bookValue_new] at h
    apply h.trans_eq
    show _ * (1 / 1000000000) * _ = 1 / 1000000000 * _ * _
    ring
  refine ⟨hdrift, ?_, ?_, ?_⟩
  · intro prices hcov
    rw [← hcov.equity_eq] at hdrift
    rwa [add_comm initialCash, ← sub_sub]
  · intro hclean
    have hexact : pf.bookValue = initialCash :=
      (inv.applyAll_exact hqty abs_price_le_max hclean).trans (bookValue_new initialCash)
    refine ⟨hexact, ?_⟩
    intro prices hcov
    have heq := hcov.equity_eq
    rw [hexact] at heq
    linarith
  · intro pre f post heq
    apply not_dividesByZero
    apply hqty
    rw [heq]
    exact List.mem_append_right pre List.mem_cons_self

/-- A short of two, covered by one fill: the identity at a mark of ninety. -/
theorem applyAll_accounting_cover :
    let fills : List (Fill ℚ) :=
      [⟨1, ['B'], .sell, 110, 2, 0⟩, ⟨2, ['B'], .buy, 100, 1, 1⟩]
    let pf := (new 1000).applyAll fills
    (∀ f ∈ fills, 0 < f.qty) ∧ pf.realizedPnl = 10 ∧ pf.position ['B'] = -1 ∧
      |pf.cash + pf.bookCost - pf.realizedPnl - 1000| ≤
        1 / 1000000000 * (fills.map Fill.qty).sum * maxAbsPrice fills := by
  intro fills pf
  have hqty : ∀ f ∈ fills, 0 < f.qty := by
    decide +kernel
  exact ⟨hqty, by decide +kernel, by decide +kernel,
    (applyAll_accounting 1000 fills hqty).1⟩

end Portfolio

end Candlestore.Matching
