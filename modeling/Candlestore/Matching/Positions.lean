import Mathlib.Data.List.Induction
import Candlestore.Matching.Portfolio

/-!
# Positions and average costs over a sequence of fills

`Portfolio::apply` tracks a signed position and an average cost per symbol.
This file says what the two numbers mean after any sequence of fills: the
position is what was bought less what was sold, up to the dust that the
tolerance rules drop, and the cost of an open position lies within the prices
of the fills since it was opened.

A sell is a buy of the mirrored leg, so every fact about one fill is proved for
buys and carried over.  The same mirror gives the symmetry of whole runs: with
every side swapped a sequence of fills leads to the mirrored portfolio.

## Main results

* `Leg.moved`: what one fill does to position, cost and realized profit.
* `Portfolio.applyAll_faithful`: positions, costs and profits over any sequence.
* `Portfolio.applyAll_swap`: long/short symmetry over any sequence.
-/

namespace Candlestore.Matching

open Candlestore

/-- The change of position that a fill on this side asks for. -/
def Side.signed : Side → ℚ → ℚ
  | .buy, q => q
  | .sell, q => -q

/-! ## One fill -/

namespace Leg

/-- The profit a fill realizes: the part of the open position that it closes, at
the difference between its price and the cost.  A fill on the same side as the
position realizes nothing. -/
def realizes (l : Leg ℚ) (side : Side) (q p : ℚ) : ℚ :=
  match side with
  | .buy => if l.pos < 0 then (l.cost - p) * min q |l.pos| else 0
  | .sell => if 0 < l.pos then (p - l.cost) * min q |l.pos| else 0

/-- What a fill does to a leg.  The position it leaves is either entered by this
fill, from flat or from the other sign, or it is an earlier one whose cost moves
towards the price of the fill at most. -/
structure Moved (l l' : Leg ℚ) (side : Side) (q p : ℚ) : Prop where
  drift : |l'.pos - (l.pos + side.signed q)| ≤ q * qtyRelTol
  entered : l'.pos ≠ 0 → l.pos * l'.pos ≤ 0 → l'.cost = p
  kept : 0 < l.pos * l'.pos → min l.cost p ≤ l'.cost ∧ l'.cost ≤ max l.cost p
  realized : l'.realizedPnl = l.realizedPnl + l.realizes side q p

theorem Moved.of_mirror {l l' : Leg ℚ} {q p : ℚ}
    (h : Moved l.mirror l'.mirror .buy q p) : Moved l l' .sell q p := by
  have hprod : l.mirror.pos * l'.mirror.pos = l.pos * l'.pos := neg_mul_neg _ _
  refine { drift := ?_, entered := ?_, kept := ?_, realized := ?_ }
  · have hdrift := h.drift
    have hneg : l'.mirror.pos - (l.mirror.pos + Side.buy.signed q) =
        -(l'.pos - (l.pos + Side.sell.signed q)) := by
      simp only [mirror_pos, Side.signed]
      ring
    rwa [hneg, abs_neg] at hdrift
  · intro hpos hle
    exact h.entered (neg_ne_zero.2 hpos) (hprod.trans_le hle)
  · intro hlt
    exact h.kept (hlt.trans_eq hprod.symm)
  · have hreal : -l'.realizedPnl = -l.realizedPnl + l.mirror.realizes .buy q p :=
      h.realized
    have hside : l.mirror.realizes .buy q p = -l.realizes .sell q p := by
      simp only [realizes, mirror_pos, mirror_cost, abs_neg, Left.neg_neg_iff]
      split
      · ring
      · exact neg_zero.symm
    rw [hside] at hreal
    linarith

/-- A trade that leaves dust ends flat. -/
theorem Moved.of_dust {l t : Leg ℚ} {side : Side} {q p : ℚ}
    (hdust : |t.pos| ≤ q * qtyRelTol) (hdrift : |l.pos + side.signed q| ≤ q * qtyRelTol)
    (hreal : t.realizedPnl = l.realizedPnl + l.realizes side q p) :
    Moved l (t.snap q) side q p := by
  rw [snap_of_dust hdust]
  refine ⟨?_, fun h => absurd rfl h, ?_, hreal⟩
  · rwa [zero_sub, abs_neg]
  · intro hlt
    rw [mul_zero] at hlt
    exact absurd hlt (lt_irrefl 0)

/-- A trade that leaves more than dust is exact. -/
theorem Moved.of_open {l t : Leg ℚ} {side : Side} {q p : ℚ} (hq : 0 < q)
    (hopen : q * qtyRelTol < |t.pos|) (hpos : t.pos = l.pos + side.signed q)
    (hentered : l.pos * t.pos ≤ 0 → t.cost = p)
    (hkept : 0 < l.pos * t.pos → min l.cost p ≤ t.cost ∧ t.cost ≤ max l.cost p)
    (hreal : t.realizedPnl = l.realizedPnl + l.realizes side q p) :
    Moved l (t.snap q) side q p := by
  have htol : 0 ≤ q * (qtyRelTol : ℚ) := mul_nonneg hq.le qtyRelTol_nonneg
  rw [snap_of_open hopen]
  refine ⟨?_, fun _ => hentered, hkept, hreal⟩
  rwa [hpos, sub_self, abs_zero]

theorem moved_buy (l : Leg ℚ) {q : ℚ} (p : ℚ) (hq : 0 < q) :
    Moved l ((l.buy q p).snap q) .buy q p := by
  have htol : 0 ≤ q * (qtyRelTol : ℚ) := mul_nonneg hq.le qtyRelTol_nonneg
  rcases buy_cases l p hq with ⟨hlong, heq⟩ | ⟨hshort, hcover, heq⟩ |
    ⟨hshort, hflip, heq⟩ | ⟨hshort, hover, hdust, heq⟩
  · -- Opening or adding: the cost is blended, which from flat gives the price.
    have hsum : 0 < l.pos + q := by linarith
    have hlt : q * qtyRelTol < q := mul_lt_of_lt_one_right hq qtyRelTol_lt_one
    rw [heq]
    refine Moved.of_open hq ?_ rfl ?_ (fun _ => blend_mem hlong hq) ?_
    · rw [abs_of_pos hsum]
      linarith
    · intro hle
      have hflat : l.pos = 0 := le_antisymm (nonpos_of_mul_nonpos_left hle hsum) hlong
      show (l.pos * l.cost + q * p) / (l.pos + q) = p
      rw [hflat, zero_mul, zero_add, zero_add, mul_div_cancel_left₀ p hq.ne']
    · rw [realizes, if_neg (not_lt.2 hlong), add_zero]
  · -- Covering part of a short: the cost stays, unless the rest is dust.
    have hreal : (l.buy q p).realizedPnl = l.realizedPnl + l.realizes .buy q p := by
      rw [heq, realizes, if_pos hshort, abs_of_neg hshort, min_eq_left hcover]
    by_cases hsnap : |(l.buy q p).pos| ≤ q * qtyRelTol
    · refine Moved.of_dust hsnap ?_ hreal
      rwa [heq] at hsnap
    · refine Moved.of_open hq (not_le.1 hsnap) (by rw [heq]; rfl) ?_ ?_ hreal
      · intro hle
        have hge : 0 ≤ (l.buy q p).pos := nonneg_of_mul_nonpos_right hle hshort
        have hzero : (l.buy q p).pos = 0 := by
          rw [heq] at hge ⊢
          linarith
        rw [hzero, abs_zero] at hsnap
        exact absurd htol hsnap
      · intro _
        rw [heq]
        exact ⟨min_le_left _ _, le_max_left _ _⟩
  · -- Flipping: what is left after the short is entered at the price.
    have hpos : 0 < q + l.pos := htol.trans_lt hflip
    rw [heq]
    refine Moved.of_open hq ?_ (add_comm _ _) (fun _ => rfl) ?_ ?_
    · rwa [abs_of_pos hpos]
    · intro hlt
      exact absurd hlt (not_lt.2 (mul_nonpos_of_nonpos_of_nonneg hshort.le hpos.le))
    · rw [realizes, if_pos hshort, abs_of_neg hshort, min_eq_right (by linarith)]
  · -- Covering the whole short: what is left of the fill is dropped.
    rw [heq]
    refine Moved.of_dust ?_ ?_ ?_
    · rwa [abs_zero]
    · rwa [Side.signed, add_comm, abs_of_pos hover]
    · rw [realizes, if_pos hshort, abs_of_neg hshort, min_eq_right (by linarith)]

theorem moved (l : Leg ℚ) (side : Side) {q : ℚ} (p : ℚ) (hq : 0 < q) :
    Moved l ((l.trade side q p).snap q) side q p := by
  cases side with
  | buy => exact moved_buy l p hq
  | sell =>
      apply Moved.of_mirror
      rw [← snap_mirror, trade, sell_eq_mirror, mirror_mirror]
      exact moved_buy l.mirror p hq

end Leg

/-! ## Any sequence of fills -/

namespace Portfolio

/-- What was bought of a symbol. -/
def bought (fills : List (Fill ℚ)) (s : Symbol) : ℚ :=
  ((fills.filter fun f => f.symbol = s ∧ f.side = .buy).map Fill.qty).sum

/-- What was sold of a symbol. -/
def sold (fills : List (Fill ℚ)) (s : Symbol) : ℚ :=
  ((fills.filter fun f => f.symbol = s ∧ f.side = .sell).map Fill.qty).sum

/-- The quantity of a symbol's fills on both sides. -/
def traded (fills : List (Fill ℚ)) (s : Symbol) : ℚ :=
  ((fills.filter fun f => f.symbol = s).map Fill.qty).sum

/-- The profit that booking the fill realizes. -/
def realizes (pf : Portfolio ℚ) (fill : Fill ℚ) : ℚ :=
  (pf.leg fill.symbol).realizes fill.side fill.qty fill.price

/-- The fill `f` opened the position that the symbol has after `pre ++ f :: post`:
before it the symbol was flat or had the other sign, and from it on it has kept
the sign. -/
structure OpenedBy (start : Portfolio ℚ) (s : Symbol) (pre : List (Fill ℚ)) (f : Fill ℚ)
    (post : List (Fill ℚ)) : Prop where
  symbol : f.symbol = s
  opens : (start.applyAll pre).position s *
    (start.applyAll (pre ++ f :: post)).position s ≤ 0
  keeps : ∀ mid, mid <+: post → 0 < (start.applyAll (pre ++ f :: mid)).position s *
    (start.applyAll (pre ++ f :: post)).position s

/-- The cost lies between the smallest and the largest price that the symbol
traded at. -/
def CostWithin (cost : ℚ) (s : Symbol) (fills : List (Fill ℚ)) : Prop :=
  ∃ low ∈ fills, ∃ high ∈ fills, low.symbol = s ∧ high.symbol = s ∧
    low.price ≤ cost ∧ cost ≤ high.price

theorem applyAll_concat (pf : Portfolio ℚ) (fills : List (Fill ℚ)) (f : Fill ℚ) :
    pf.applyAll (fills ++ [f]) = (pf.applyAll fills).apply f :=
  List.foldl_append

theorem moved (pf : Portfolio ℚ) {fill : Fill ℚ} (hq : 0 < fill.qty) :
    (pf.leg fill.symbol).Moved (pf.legAfter fill) fill.side fill.qty fill.price :=
  Leg.moved _ fill.side fill.price hq

theorem net_concat (fills : List (Fill ℚ)) (f : Fill ℚ) (s : Symbol) :
    bought (fills ++ [f]) s - sold (fills ++ [f]) s =
      bought fills s - sold fills s +
        if f.symbol = s then f.side.signed f.qty else 0 := by
  unfold bought sold
  by_cases hs : f.symbol = s
  · cases hside : f.side with
    | buy =>
        simp [List.filter_append, hs, hside, Side.signed]
        ring
    | sell =>
        simp [List.filter_append, hs, hside, Side.signed]
        ring
  · simp [List.filter_append, hs]

theorem traded_concat (fills : List (Fill ℚ)) (f : Fill ℚ) (s : Symbol) :
    traded (fills ++ [f]) s = traded fills s + if f.symbol = s then f.qty else 0 := by
  unfold traded
  by_cases hs : f.symbol = s
  · simp [List.filter_append, hs]
  · simp [List.filter_append, hs]

section Run

variable (initialCash : ℚ) {fills : List (Fill ℚ)} (hqty : ∀ f ∈ fills, 0 < f.qty)
  (s : Symbol)
include hqty

/-- Each fill moves the position by its quantity, up to the dust of the fill. -/
theorem abs_position_sub_net_le :
    |((new initialCash).applyAll fills).position s - (bought fills s - sold fills s)| ≤
      traded fills s * qtyRelTol := by
  induction fills using List.reverseRecOn with
  | nil => simp [applyAll, new, position, bought, sold, traded, F64.lit]
  | append_singleton fills f ih =>
      have hrest := ih fun g hg => hqty g (List.mem_append_left _ hg)
      have hf : 0 < f.qty := hqty f (List.mem_append_right _ List.mem_cons_self)
      rw [applyAll_concat, position_apply, net_concat, traded_concat]
      by_cases hs : f.symbol = s
      · subst hs
        have hstep := (moved ((new initialCash).applyAll fills) hf).drift
        rw [if_pos rfl, if_pos rfl, if_pos rfl, add_mul]
        refine le_trans (le_of_eq ?_) ((abs_add_le _ _).trans (add_le_add hrest hstep))
        congr 1
        simp only [leg]
        ring
      · rwa [if_neg (Ne.symm hs), if_neg hs, if_neg hs, add_zero, add_zero]

theorem avgCost_eq_zero_of_flat
    (hflat : ((new initialCash).applyAll fills).position s = 0) :
    ((new initialCash).applyAll fills).avgCost s = 0 := by
  induction fills using List.reverseRecOn with
  | nil => rfl
  | append_singleton fills f ih =>
      have hf : 0 < f.qty := hqty f (List.mem_append_right _ List.mem_cons_self)
      rw [applyAll_concat, position_apply] at hflat
      rw [applyAll_concat, avgCost_apply]
      split at hflat
      · next hs =>
          rw [if_pos hs]
          exact Leg.snap_flat hf hflat
      · next hs =>
          rw [if_neg hs]
          exact ih (fun g hg => hqty g (List.mem_append_left _ hg)) hflat

end Run

theorem CostWithin.of_entry (f : Fill ℚ) (post : List (Fill ℚ)) :
    CostWithin f.price f.symbol (f :: post) :=
  ⟨f, List.mem_cons_self, f, List.mem_cons_self, rfl, rfl, le_rfl, le_rfl⟩

theorem CostWithin.mono {cost : ℚ} {s : Symbol} {fills fills' : List (Fill ℚ)}
    (h : CostWithin cost s fills) (hsub : fills ⊆ fills') :
    CostWithin cost s fills' := by
  obtain ⟨low, hlow, high, hhigh, rest⟩ := h
  exact ⟨low, hsub hlow, high, hsub hhigh, rest⟩

/-- A cost that moves towards the price of one more fill stays within the prices. -/
theorem CostWithin.concat {cost cost' : ℚ} {fills : List (Fill ℚ)} {f : Fill ℚ}
    (h : CostWithin cost f.symbol fills)
    (hmove : min cost f.price ≤ cost' ∧ cost' ≤ max cost f.price) :
    CostWithin cost' f.symbol (fills ++ [f]) := by
  obtain ⟨low, hlow, high, hhigh, hls, hhs, hle, hge⟩ := h
  have hlast : f ∈ fills ++ [f] := List.mem_append_right _ List.mem_cons_self
  have hlow' : ∃ g ∈ fills ++ [f], g.symbol = f.symbol ∧ g.price ≤ cost' := by
    rcases min_le_iff.1 hmove.1 with hc | hp
    · exact ⟨low, List.mem_append_left _ hlow, hls, hle.trans hc⟩
    · exact ⟨f, hlast, rfl, hp⟩
  have hhigh' : ∃ g ∈ fills ++ [f], g.symbol = f.symbol ∧ cost' ≤ g.price := by
    rcases le_max_iff.1 hmove.2 with hc | hp
    · exact ⟨high, List.mem_append_left _ hhigh, hhs, hc.trans hge⟩
    · exact ⟨f, hlast, rfl, hp⟩
  obtain ⟨low', hlow', hls', hle'⟩ := hlow'
  obtain ⟨high', hhigh', hhs', hge'⟩ := hhigh'
  exact ⟨low', hlow', high', hhigh', hls', hhs', hle', hge'⟩

/-- Having the same sign is transitive. -/
theorem mul_pos_trans {a b c : ℚ} (hab : 0 < a * b) (hbc : 0 < b * c) : 0 < a * c := by
  have hb : b ≠ 0 := right_ne_zero_of_mul hab.ne'
  have hprod : 0 < b * b * (a * c) := by
    calc 0 < a * b * (b * c) := mul_pos hab hbc
      _ = b * b * (a * c) := by ring
  exact (mul_pos_iff_of_pos_left (mul_self_pos.2 hb)).1 hprod

/-- A fill after which the symbol keeps its sign leaves the opening fill what it
was. -/
theorem OpenedBy.concat {start : Portfolio ℚ} {s : Symbol} {pre post : List (Fill ℚ)}
    {f g : Fill ℚ} (h : OpenedBy start s pre f post)
    (hsign : 0 < (start.applyAll (pre ++ f :: post)).position s *
      (start.applyAll (pre ++ f :: (post ++ [g]))).position s) :
    OpenedBy start s pre f (post ++ [g]) := by
  refine ⟨h.symbol, ?_, ?_⟩
  · by_contra hpos
    rw [mul_comm] at hsign
    exact absurd (mul_pos_trans (not_le.1 hpos) hsign) (not_lt.2 h.opens)
  · intro mid hmid
    rcases List.prefix_concat_iff.1 hmid with rfl | hmid
    · exact mul_self_pos.2 (right_ne_zero_of_mul hsign.ne')
    · exact mul_pos_trans (h.keeps mid hmid) hsign

/-- The fill that opened the position of a symbol, and the cost within the prices
since. -/
theorem exists_openedBy (initialCash : ℚ) {fills : List (Fill ℚ)}
    (hqty : ∀ f ∈ fills, 0 < f.qty) (s : Symbol)
    (hopen : ((new initialCash).applyAll fills).position s ≠ 0) :
    ∃ pre f post, fills = pre ++ f :: post ∧ OpenedBy (new initialCash) s pre f post ∧
      CostWithin (((new initialCash).applyAll fills).avgCost s) s (f :: post) := by
  induction fills using List.reverseRecOn with
  | nil => exact absurd rfl hopen
  | append_singleton fills g ih =>
      have hg : 0 < g.qty := hqty g (List.mem_append_right _ List.mem_cons_self)
      have ih := ih fun f hf => hqty f (List.mem_append_left _ hf)
      have hpos := position_apply ((new initialCash).applyAll fills) g s
      have hcost := avgCost_apply ((new initialCash).applyAll fills) g s
      rw [← applyAll_concat] at hpos hcost
      by_cases hs : s = g.symbol
      · subst hs
        rw [if_pos rfl] at hpos hcost
        have hmoved := moved ((new initialCash).applyAll fills) hg
        rcases le_or_gt (((new initialCash).applyAll fills).position g.symbol *
            ((new initialCash).applyAll (fills ++ [g])).position g.symbol)
            0 with hle | hlt
        · -- the fill itself opens the position
          refine ⟨fills, g, [], rfl, ⟨rfl, hle, ?_⟩, ?_⟩
          · intro mid hmid
            rw [List.prefix_nil.1 hmid]
            exact mul_self_pos.2 hopen
          · rw [hpos] at hopen hle
            rw [hcost, hmoved.entered hopen hle]
            exact .of_entry g []
        · -- the position was open before, and its cost moves within the prices
          obtain ⟨pre, f, post, rfl, hopened, hwithin⟩ :=
            ih (left_ne_zero_of_mul hlt.ne')
          refine ⟨pre, f, post ++ [g], by simp, hopened.concat (by simpa using hlt), ?_⟩
          rw [hpos] at hlt
          rw [hcost]
          exact hwithin.concat (hmoved.kept hlt)
      · rw [if_neg hs] at hpos hcost
        rw [hpos] at hopen
        obtain ⟨pre, f, post, rfl, hopened, hwithin⟩ := ih hopen
        refine ⟨pre, f, post ++ [g], by simp, hopened.concat ?_, ?_⟩
        · rw [← List.cons_append, ← List.append_assoc, hpos]
          exact mul_self_pos.2 hopen
        · rw [hcost]
          exact hwithin.mono (List.subset_append_left _ _)

/-- Positions, costs and realized profit stay faithful to the fills.  After any
fills of positive quantity the position of every symbol is what was bought less
what was sold, up to the dust of the quantity traded.  A flat symbol has no
cost, an open one a cost within the prices since it was opened, and each fill
realizes the part of the open position that it closes. -/
theorem applyAll_faithful (initialCash : ℚ) (fills : List (Fill ℚ))
    (hqty : ∀ f ∈ fills, 0 < f.qty) (s : Symbol) :
    let pf := (new initialCash).applyAll fills
    |pf.position s - (bought fills s - sold fills s)| ≤ 1 / 1000000000 * traded fills s ∧
    (pf.position s = 0 → pf.avgCost s = 0) ∧
    (pf.position s ≠ 0 → ∃ pre f post, fills = pre ++ f :: post ∧
      OpenedBy (new initialCash) s pre f post ∧
      CostWithin (pf.avgCost s) s (f :: post)) ∧
    ∀ pre f post, fills = pre ++ f :: post →
      ((new initialCash).applyAll (pre ++ [f])).realizedPnl =
        ((new initialCash).applyAll pre).realizedPnl +
          ((new initialCash).applyAll pre).realizes f := by
  intro pf
  refine ⟨?_, avgCost_eq_zero_of_flat initialCash hqty s,
    exists_openedBy initialCash hqty s, ?_⟩
  · rw [mul_comm]
    exact abs_position_sub_net_le initialCash hqty s
  · rintro pre f post rfl
    have hf : 0 < f.qty := hqty f (List.mem_append_right _ List.mem_cons_self)
    rw [applyAll_concat]
    exact (moved _ hf).realized

/-- A long that is added to, sold through to a short and added to again. -/
theorem applyAll_faithful_flip :
    let fills : List (Fill ℚ) :=
      [⟨1, ['B'], .buy, 100, 1, 0⟩, ⟨2, ['B'], .buy, 130, 2, 1⟩,
        ⟨3, ['B'], .sell, 110, 5, 2⟩, ⟨4, ['B'], .sell, 120, 2, 3⟩]
    let pf := (new 1000).applyAll fills
    (∀ f ∈ fills, 0 < f.qty) ∧ pf.position ['B'] = -4 ∧ pf.avgCost ['B'] = 115 ∧
      pf.realizedPnl = -30 ∧ ∃ pre f post, fills = pre ++ f :: post ∧
        OpenedBy (new 1000) ['B'] pre f post ∧
        CostWithin (pf.avgCost ['B']) ['B'] (f :: post) := by
  intro fills pf
  have hqty : ∀ f ∈ fills, 0 < f.qty := by decide +kernel
  exact ⟨hqty, by decide +kernel, by decide +kernel, by decide +kernel,
    (applyAll_faithful 1000 fills hqty ['B']).2.2.1 (by decide +kernel)⟩

end Portfolio

/-! ## The other side of every fill -/

/-- The fill with its side swapped. -/
def Fill.swap (f : Fill ℚ) : Fill ℚ := { f with side := f.side.opposite }

namespace Leg

/-- The leg of a portfolio with more cash. -/
def deposit (l : Leg ℚ) (amount : ℚ) : Leg ℚ := { l with cash := l.cash + amount }

/-- No branch of a buy looks at the cash. -/
theorem deposit_buy (l : Leg ℚ) (amount q p : ℚ) :
    (l.deposit amount).buy q p = (l.buy q p).deposit amount := by
  have hcash : l.cash + amount - q * p = l.cash - q * p + amount := by ring
  unfold buy deposit
  dsimp only
  split
  · rw [hcash]
  · split <;> rw [hcash]

theorem deposit_snap (l : Leg ℚ) (amount q : ℚ) :
    (l.deposit amount).snap q = (l.snap q).deposit amount := by
  unfold snap deposit
  dsimp only
  split <;> rfl

theorem mirror_deposit (l : Leg ℚ) (amount : ℚ) :
    (l.deposit amount).mirror = l.mirror.deposit (-amount) := by
  simp only [mirror, deposit, neg_add]

theorem deposit_trade (l : Leg ℚ) (amount : ℚ) (side : Side) (q p : ℚ) :
    (l.deposit amount).trade side q p = (l.trade side q p).deposit amount := by
  cases side with
  | buy => exact l.deposit_buy amount q p
  | sell =>
      show (l.deposit amount).sell q p = (l.sell q p).deposit amount
      rw [sell_eq_mirror, sell_eq_mirror, mirror_deposit, deposit_buy,
        mirror_deposit, neg_neg]

/-- Trading the mirrored leg on the other side mirrors the trade. -/
theorem mirror_trade (l : Leg ℚ) (side : Side) (q p : ℚ) :
    l.mirror.trade side.opposite q p = (l.trade side q p).mirror := by
  cases side with
  | buy =>
      show l.mirror.sell q p = (l.buy q p).mirror
      rw [sell_eq_mirror, mirror_mirror]
  | sell =>
      show l.mirror.buy q p = (l.sell q p).mirror
      rw [sell_eq_mirror, mirror_mirror]

end Leg

namespace Portfolio

/-- Every leg of the second portfolio is the mirrored leg of the first.  The cash
is mirrored at half of `amount`. -/
def Mirrors (pf pf' : Portfolio ℚ) (amount : ℚ) : Prop :=
  ∀ s, pf'.leg s = (pf.leg s).mirror.deposit amount

theorem Mirrors.new (initialCash : ℚ) :
    Mirrors (new initialCash) (new initialCash) (2 * initialCash) := by
  intro s
  simp only [leg, Leg.mirror, Leg.deposit, Leg.mk.injEq, true_and]
  refine ⟨neg_zero.symm, neg_zero.symm, ?_⟩
  show initialCash = -initialCash + 2 * initialCash
  ring

theorem leg_apply (pf : Portfolio ℚ) (fill : Fill ℚ) (s : Symbol) :
    (pf.apply fill).leg s =
      if s = fill.symbol then pf.legAfter fill
      else { pf.leg s with
        realizedPnl := (pf.legAfter fill).realizedPnl
        cash := (pf.legAfter fill).cash } := by
  simp only [leg, position_apply, avgCost_apply]
  split <;> rfl

theorem Mirrors.legAfter {pf pf' : Portfolio ℚ} {amount : ℚ} (h : Mirrors pf pf' amount)
    (fill : Fill ℚ) :
    pf'.legAfter fill.swap = (pf.legAfter fill).mirror.deposit amount := by
  show ((pf'.leg fill.symbol).trade fill.side.opposite fill.qty fill.price).snap
    fill.qty = _
  rw [h fill.symbol, Leg.deposit_trade, Leg.mirror_trade, Leg.deposit_snap,
    Leg.snap_mirror]
  rfl

theorem Mirrors.apply {pf pf' : Portfolio ℚ} {amount : ℚ} (h : Mirrors pf pf' amount)
    (fill : Fill ℚ) : Mirrors (pf.apply fill) (pf'.apply fill.swap) amount := by
  intro s
  rw [leg_apply, leg_apply, h.legAfter fill, h s]
  show (if s = fill.symbol then _ else _) = _
  split <;> rfl

theorem Mirrors.applyAll {pf pf' : Portfolio ℚ} {amount : ℚ} (h : Mirrors pf pf' amount)
    (fills : List (Fill ℚ)) :
    Mirrors (pf.applyAll fills) (pf'.applyAll (fills.map Fill.swap)) amount := by
  induction fills generalizing pf pf' with
  | nil => exact h
  | cons f fills ih => exact ih (h.apply f)

/-- Long/short symmetry.  With every side swapped a sequence of fills leads, for
every symbol, to the negated position at the same cost, and to the negated
profit and change of cash. -/
theorem applyAll_swap (initialCash : ℚ) (fills : List (Fill ℚ)) :
    let pf := (new initialCash).applyAll fills
    let pf' := (new initialCash).applyAll (fills.map Fill.swap)
    (∀ s, pf'.position s = -pf.position s ∧ pf'.avgCost s = pf.avgCost s) ∧
      pf'.realizedPnl = -pf.realizedPnl ∧
      pf'.cash - initialCash = -(pf.cash - initialCash) := by
  intro pf pf'
  have h : Mirrors pf pf' (2 * initialCash) := (Mirrors.new initialCash).applyAll fills
  refine ⟨fun s => ⟨congrArg Leg.pos (h s), congrArg Leg.cost (h s)⟩,
    congrArg Leg.realizedPnl (h []), ?_⟩
  have hcash : pf'.cash = -pf.cash + 2 * initialCash := congrArg Leg.cash (h [])
  rw [hcash]
  ring

end Portfolio

end Candlestore.Matching
