import Candlestore.Matching.Confined

/-!
# The price a trade is done at

A trade is done at the price rebuilt from the key of its level, not at the price its
maker quoted.  Quoted prices are checked to be positive and not above `MAX_PRICE`, so no
key saturates and the two prices differ by half a tick at most; but a price below half a
tick has the key zero.  This file ties every fill to its maker and says which quotes come
back positive.
-/

namespace Candlestore.Matching

open Candlestore Lib

/-! ## Keys and quotes -/

/-- A quote of half a tick or more, which rounds to a key other than zero. -/
def Quotable (p : ℚ) : Prop := 1 / 2 ≤ p * 100000000

theorem tryPriceKey_ok {p : ℚ} {key : Nat} (h : tryPriceKey p = .ok key) :
    0 < p ∧ p * 100000000 ≤ u64Max ∧ key = roundRatU64 (p * 100000000) := by
  simp only [tryPriceKey, F64.isFinite, Bool.not_true, Bool.false_eq_true, if_false] at h
  split at h
  · cases h
  · next hpos =>
    split at h
    · cases h
    · next htop =>
      have htop : p ≤ (u64Max : ℚ) / 100000000 := not_lt.1 htop
      exact ⟨not_le.1 hpos, (le_div_iff₀ (by norm_num)).1 htop, (Except.ok.inj h).symm⟩

/-- Below the bound of the keys, rounding is rounding to the nearest whole number. -/
theorem roundRatU64_eq {x : ℚ} (hx : 0 ≤ x) (htop : x ≤ u64Max) :
    ∃ m : Nat, roundRatU64 x = m ∧ (m : ℚ) ≤ x + 1 / 2 ∧ x + 1 / 2 < (m : ℚ) + 1 := by
  have hnonneg : 0 ≤ ⌊x + 1 / 2⌋ := Int.floor_nonneg.2 (by linarith)
  obtain ⟨m, hm⟩ := Int.eq_ofNat_of_zero_le hnonneg
  have hle : (m : ℚ) ≤ x + 1 / 2 := by
    have hfloor := Int.floor_le (x + 1 / 2)
    rw [hm] at hfloor
    exact_mod_cast hfloor
  have hlt : x + 1 / 2 < (m : ℚ) + 1 := by
    have hfloor := Int.lt_floor_add_one (x + 1 / 2)
    rw [hm] at hfloor
    exact_mod_cast hfloor
  refine ⟨m, ?_, hle, hlt⟩
  have hfits : m ≤ u64Max := by
    have hcast : (m : ℚ) < (u64Max + 1 : ℕ) := by
      rw [Nat.cast_add, Nat.cast_one]
      linarith
    exact Nat.lt_succ_iff.1 (Nat.cast_lt.1 hcast)
  rw [roundRatU64, hm, Int.toNat_natCast, Nat.min_eq_right hfits]

section Quotes

variable {p : ℚ} {key : Nat}

/-- The key of an accepted price is the nearest number of ticks. -/
theorem key_near (h : tryPriceKey p = .ok key) :
    (key : ℚ) ≤ p * 100000000 + 1 / 2 ∧ p * 100000000 + 1 / 2 < (key : ℚ) + 1 := by
  obtain ⟨hp, htop, rfl⟩ := tryPriceKey_ok h
  obtain ⟨m, hm, hnear⟩ := roundRatU64_eq (by linarith) htop
  rw [hm]
  exact hnear

theorem keyPrice_near (h : tryPriceKey p = .ok key) :
    |(keyPrice key : ℚ) - p| ≤ 5 / 1000000000 := by
  obtain ⟨hlow, hhigh⟩ := key_near h
  have hkey : (keyPrice key : ℚ) = key / 100000000 := rfl
  rw [hkey, abs_le]
  constructor <;> linarith

theorem keyPrice_pos_iff (h : tryPriceKey p = .ok key) :
    0 < (keyPrice key : ℚ) ↔ Quotable p := by
  obtain ⟨hlow, hhigh⟩ := key_near h
  have hkey : (keyPrice key : ℚ) = key / 100000000 := rfl
  rw [hkey, div_pos_iff_of_pos_right (by norm_num), Nat.cast_pos, Quotable]
  constructor
  · intro hpos
    have hone : (1 : ℚ) ≤ key := Nat.one_le_cast.2 hpos
    linarith
  · intro hquote
    have hpos : (0 : ℚ) < key := by linarith
    exact Nat.cast_pos.1 hpos

end Quotes

/-! ## Fills and their makers -/

/-- The fills of trading with the makers in turn, each with the maker of its trade. -/
def fillsWith (ts : Int) : Order ℚ → List (Nat × Order ℚ) → List (Fill ℚ × Order ℚ)
  | _, [] => []
  | taker, (key, maker) :: rest =>
      ({ orderId := taker.id, symbol := taker.symbol, side := taker.side,
         price := keyPrice key, qty := exchanged taker maker, ts }, maker) ::
      ({ orderId := maker.id, symbol := maker.symbol, side := maker.side,
         price := keyPrice key, qty := exchanged taker maker, ts }, maker) ::
      fillsWith ts (reduced taker (exchanged taker maker)) rest

theorem map_fst_fillsWith (ts : Int) (taker : Order ℚ)
    (consumed : List (Nat × Order ℚ)) :
    (fillsWith ts taker consumed).map Prod.fst =
      (tradeEvents ts taker consumed).filterMap TradeEvent.fill? := by
  induction consumed generalizing taker with
  | nil => rfl
  | cons e rest ih =>
      obtain ⟨key, maker⟩ := e
      rw [fillsWith, tradeEvents, List.map_cons, List.map_cons, ih]
      rfl

/-- Both fills of a trade carry its price and its quantity. -/
theorem mem_fillsWith {ts : Int} {taker : Order ℚ} {consumed : List (Nat × Order ℚ)}
    {f : Fill ℚ} {maker : Order ℚ} (h : (f, maker) ∈ fillsWith ts taker consumed) :
    ∃ init key tail, consumed = init ++ (key, maker) :: tail ∧ f.price = keyPrice key ∧
      f.qty = exchanged (afterTrades taker init) maker := by
  induction consumed generalizing taker with
  | nil => cases h
  | cons e rest ih =>
      obtain ⟨key, m⟩ := e
      rw [fillsWith, List.mem_cons, List.mem_cons] at h
      rcases h with htaker | hmaker | hrest
      · cases htaker
        exact ⟨[], key, rest, rfl, rfl, rfl⟩
      · cases hmaker
        exact ⟨[], key, rest, rfl, rfl, rfl⟩
      · obtain ⟨init, k, tail, rfl, hprice, hqty⟩ := ih hrest
        exact ⟨(key, m) :: init, k, tail, rfl, hprice, hqty⟩

theorem exists_mem_fillsWith (ts : Int) (taker : Order ℚ)
    {consumed : List (Nat × Order ℚ)} {key : Nat} {maker : Order ℚ}
    (h : (key, maker) ∈ consumed) :
    ∃ f, (f, maker) ∈ fillsWith ts taker consumed ∧ f.price = keyPrice key := by
  induction consumed generalizing taker with
  | nil => cases h
  | cons e rest ih =>
      obtain ⟨k, m⟩ := e
      rcases List.mem_cons.1 h with heq | hrest
      · cases heq
        exact ⟨_, List.mem_cons_self, rfl⟩
      · obtain ⟨f, hf, hprice⟩ := ih (reduced taker (exchanged taker m)) hrest
        exact ⟨f, List.mem_cons_of_mem _ (List.mem_cons_of_mem _ hf), hprice⟩

theorem fill?_cancel (events : List (TradeEvent ℚ)) (id : Nat) (reason : CancelReason) :
    (events ++ [TradeEvent.cancel id reason]).filterMap TradeEvent.fill? =
      events.filterMap TradeEvent.fill? := by
  rw [List.filterMap_append]
  exact List.append_nil _

/-- A submission emits the fills of its sweep, or none. -/
theorem Submitted.fills {book book' : OrderBook ℚ} {order : Order ℚ}
    {limit : Option Nat} {ts : Int} {events : List (TradeEvent ℚ)}
    (h : Submitted book order limit ts book' events) :
    events.filterMap TradeEvent.fill? = [] ∨ events.filterMap TradeEvent.fill? =
      (sweepOf book order limit ts).events.filterMap TradeEvent.fill? := by
  cases h with
  | killed _ => exact .inl rfl
  | filled _ _ _ => exact .inr rfl
  | rested _ _ _ _ _ _ _ _ _ => exact .inr rfl
  | cancelled _ _ _ _ _ => exact .inr (fill?_cancel _ _ _)

/-! ## Every trade of a run -/

/-- A fill for a positive quantity, at a price within half a tick of what the maker
quoted. -/
def NearFill (f : Fill ℚ) (maker : Order ℚ) : Prop :=
  0 < f.qty ∧ ∃ p, maker.price = some p ∧ |f.price - p| ≤ 5 / 1000000000

/-- A fill as it should be: at a positive price besides. -/
def GoodFill (f : Fill ℚ) (maker : Order ℚ) : Prop := NearFill f maker ∧ 0 < f.price

theorem afterTrades_qty (taker : Order ℚ) (consumed : List (Nat × Order ℚ)) :
    (afterTrades taker consumed).qty = taker.qty := by
  induction consumed generalizing taker with
  | nil => rfl
  | cons e rest ih => exact (ih _).trans rfl

section Consumed

variable {taker : Order ℚ} {side : Side} {consumed rest : List (Nat × Order ℚ)}

/-- The makers a taker consumes quote at their keys, so it trades near their quotes. -/
theorem nearFills (hqty : 0 < taker.qty) (hcons : ConsumesPrefix taker consumed rest)
    (hresting : ∀ e ∈ consumed, Resting side e.1 e.2) (ts : Int) :
    ∀ x ∈ fillsWith ts taker consumed, NearFill x.1 x.2 := by
  rintro ⟨f, maker⟩ hf
  obtain ⟨init, key, tail, rfl, hprice, htrade⟩ := mem_fillsWith hf
  have he : (key, maker) ∈ init ++ (key, maker) :: tail :=
    List.mem_append_right _ List.mem_cons_self
  obtain ⟨p, hp, hkey⟩ := (hresting _ he).key_eq
  have hhungry := hcons.hungry init (key, maker) tail rfl
  rw [← Bool.not_eq_true, isFilled_iff, not_le, afterTrades_qty] at hhungry
  refine ⟨?_, p, hp, ?_⟩
  · rw [htrade]
    exact lt_min (by linarith) (hresting _ he).remaining_pos
  · rw [hprice]
    exact keyPrice_near hkey

/-- Their trades are at positive prices exactly if all of them
quoted half a tick or more. -/
theorem fills_pos_iff (hresting : ∀ e ∈ consumed, Resting side e.1 e.2) (ts : Int) :
    (∀ x ∈ fillsWith ts taker consumed, 0 < x.1.price) ↔
      ∀ e ∈ consumed, ∀ p, e.2.price = some p → Quotable p := by
  constructor
  · rintro hpos ⟨key, maker⟩ he p hp
    obtain ⟨f, hf, hprice⟩ := exists_mem_fillsWith ts taker he
    obtain ⟨p', hp', hkey⟩ := (hresting _ he).key_eq
    obtain rfl := Option.some.inj (hp'.symm.trans hp)
    exact (keyPrice_pos_iff hkey).1 (hprice ▸ hpos _ hf)
  · rintro hquotes ⟨f, maker⟩ hf
    obtain ⟨init, key, tail, rfl, hprice, _⟩ := mem_fillsWith hf
    have he : (key, maker) ∈ init ++ (key, maker) :: tail :=
      List.mem_append_right _ List.mem_cons_self
    obtain ⟨p, hp, hkey⟩ := (hresting _ he).key_eq
    exact hprice ▸ (keyPrice_pos_iff hkey).2 (hquotes _ he p hp)

end Consumed

/-- A maker that rests was submitted before. -/
theorem BookInv.original_mem {history : List (Order ℚ)} {book : OrderBook ℚ}
    (inv : BookInv history book) (side : Side) :
    ∀ e ∈ queueOf (ladder side (book.makers side)), e.2.original ∈ history := by
  rintro ⟨key, o⟩ he
  obtain ⟨queue, hqueue, ho⟩ := (mem_queueOf _ key o).1 he
  exact (inv.makers side _ hqueue).arrival.mem (List.mem_map_of_mem ho)

/-- In every run, the fills of an accepted order are its trades with the first eligible
makers, each of them an order submitted before.  All of them are for a positive quantity
and within half a tick of the quote, and all of them are at a positive price exactly if
each of those makers quoted half a tick or more. -/
theorem trades_good_iff_quotable {symbol : Symbol} {book : OrderBook ℚ}
    {history : List (Order ℚ)} {past : List (TradeEvent ℚ)}
    (hrun : BookRun symbol book history past) (order : Order ℚ) (hbuilt : order.Built)
    (ts : Int) (fuel : Nat) (book' : OrderBook ℚ) (events : List (TradeEvent ℚ))
    (h : trySubmit fuel book order ts = .ok (book', .ok events)) :
    ∃ limit consumed rest, limitKey order = .ok limit ∧
      eligible book order.side limit = consumed ++ rest ∧
      events.filterMap TradeEvent.fill? = (fillsWith ts order consumed).map Prod.fst ∧
      (∀ e ∈ consumed, e.2.original ∈ history) ∧
      (∀ x ∈ fillsWith ts order consumed, NearFill x.1 x.2) ∧
      ((∀ x ∈ fillsWith ts order consumed, GoodFill x.1 x.2) ↔
        ∀ e ∈ consumed, ∀ p, e.2.price = some p → Quotable p) := by
  have inv := hrun.bookInv
  rcases inv.trySubmit_cases hbuilt h with
    ⟨_, _, _, hr⟩ | ⟨hvalid, limit, _, hlimit, hr, hsub⟩
  · cases hr
  obtain rfl := Except.ok.inj hr
  have hqty := (limitKey_of_valid hvalid).1
  rcases hsub.fills with hnone | hfills
  · refine ⟨limit, [], _, hlimit, rfl, hnone, (fun _ he => by cases he),
      (fun _ hx => by cases hx), ?_⟩
    exact iff_of_true (fun _ hx => by cases hx) (fun _ he => by cases he)
  · have hresting := inv.reachable_resting order.side limit
    obtain ⟨consumed, rest, hsplit, hcons, hpass⟩ :=
      priorityPass_consumes ts _ order hqty.le
      fun e he => (hresting e he).qty_pos.le
    rw [queueOf_reachable] at hsplit hresting
    have hmem : ∀ e ∈ consumed, e ∈ eligible book order.side limit := by
      intro e he
      rw [hsplit]
      exact List.mem_append_left _ he
    have hnear := nearFills hqty hcons (fun e he => hresting e (hmem e he)) ts
    refine ⟨limit, consumed, rest, hlimit, hsplit, ?_, ?_, hnear, ?_⟩
    · rw [hfills, (inv.sweepOf_eq hqty.le limit ts).1, hpass, map_fst_fillsWith]
    · intro e he
      exact inv.original_mem order.side e (List.mem_filter.1 (hmem e he)).1
    · rw [← fills_pos_iff (fun e he => hresting e (hmem e he)) ts]
      exact forall₂_congr fun x hx => and_iff_right (hnear x hx)

/-- An ask quoted at a price that is no whole number of ticks,
and a market order for it. -/
theorem trades_good_iff_quotable_one_ask :
    let ask : Order ℚ := Order.limit 1 ['X'] .sell (1234567891 / 10000000000) 2 0
    let taker : Order ℚ := Order.market 2 ['X'] .buy 1 0
    ∃ book past book' events, BookRun ['X'] book [ask] past ∧
      trySubmit 9 book taker 0 = .ok (book', .ok events) ∧
      (events.filterMap TradeEvent.fill?).map Fill.price =
        [12345679 / 100000000, 12345679 / 100000000] ∧
      ∃ made : List (Fill ℚ × Order ℚ), events.filterMap TradeEvent.fill? =
        made.map Prod.fst ∧
        ∀ x ∈ made, GoodFill x.1 x.2 := by
  intro ask taker
  obtain ⟨book, past, hrun, hp⟩ := exists_bookRun ['X'] 9 [ask]
    (fun o ho => List.mem_singleton.1 ho ▸ .limit _ _ _ _ _ _)
    (fun r => (trySubmit 9 r.1 taker 0).toOption.any fun r' => r'.2.toOption.any
      fun events =>
      decide ((events.filterMap TradeEvent.fill?).map Fill.price =
        [12345679 / 100000000, 12345679 / 100000000])) (by decide +kernel)
  obtain ⟨⟨book', r⟩, hcall, hr⟩ := exists_ok hp
  cases r with
  | error e => cases hr
  | ok events =>
      refine ⟨book, past, book', events, hrun, hcall, of_decide_eq_true hr, ?_⟩
      obtain ⟨limit, consumed, rest, _, _, hfills, hhistory, _, hiff⟩ :=
        trades_good_iff_quotable hrun taker (.market _ _ _ _ _) 0 9 book' events hcall
      refine ⟨_, hfills, hiff.2 ?_⟩
      intro e he p hprice
      have hask : e.2.original = ask := List.mem_singleton.1 (hhistory e he)
      have hquote : e.2.price = some (1234567891 / 10000000000) :=
        (congrArg Order.price hask :)
      obtain rfl := Option.some.inj (hprice.symm.trans hquote)
      norm_num [Quotable]

/-- An ask at a billionth is accepted and trades at the price zero. -/
theorem tiny_quote_trades_at_zero :
    (trySubmitAll 9 (OrderBook.new ['X'])
      [(Order.limit 1 ['X'] .sell (1 / 1000000000 : ℚ) 1 0, 0),
        (Order.market 2 ['X'] .buy 1 0, 0)]).toOption.map
        (fun r => (acceptedEvents r.2).filterMap TradeEvent.fill?) =
      some [⟨2, ['X'], .buy, 0, 1, 0⟩, ⟨1, ['X'], .sell, 0, 1, 0⟩] := by
  decide +kernel

end Candlestore.Matching
