import Candlestore.Matching.Submit

/-!
# Matching refines price-time priority

The result of matching, said without the loops.  The eligible makers, best
price first and in arrival order inside a level, split into the consumed ones
and the rest.  The events are the trades with the consumed makers in turn; all
of them but possibly the last are used up; the taker is hungry before every
trade, and matching ends when it is filled or no eligible maker is left.
-/

namespace Candlestore.Matching

open Candlestore Lib

/-! ## The reference -/

/-- What a taker and a maker exchange: the smaller of the two remainders. -/
def exchanged (taker maker : Order ℚ) : ℚ := min taker.remaining maker.remaining

/-- The order once `qty` of it has traded. -/
def reduced (o : Order ℚ) (qty : ℚ) : Order ℚ :=
  { o with remaining := o.remaining - qty }

/-- The taker after trading with the makers in turn. -/
def afterTrades : Order ℚ → List (Nat × Order ℚ) → Order ℚ
  | taker, [] => taker
  | taker, (_, maker) :: rest => afterTrades (reduced taker (exchanged taker maker)) rest

/-- Two fills per maker, the taker's and then the maker's own, at the price of
the maker's level and for the smaller of the two remainders. -/
def tradeEvents (ts : Int) : Order ℚ → List (Nat × Order ℚ) → List (TradeEvent ℚ)
  | _, [] => []
  | taker, (key, maker) :: rest =>
      .fill { orderId := taker.id, symbol := taker.symbol, side := taker.side,
              price := keyPrice key, qty := exchanged taker maker, ts } ::
      .fill { orderId := maker.id, symbol := maker.symbol, side := maker.side,
              price := keyPrice key, qty := exchanged taker maker, ts } ::
      tradeEvents ts (reduced taker (exchanged taker maker)) rest

/-- The makers that trading with them in turn does not use up. -/
def residues : Order ℚ → List (Nat × Order ℚ) → List (Nat × Order ℚ)
  | _, [] => []
  | taker, (key, maker) :: rest =>
      let left := residues (reduced taker (exchanged taker maker)) rest
      if (reduced maker (exchanged taker maker)).isFilled then left
      else (key, reduced maker (exchanged taker maker)) :: left

/-- The taker may trade at the key: a buyer at its limit or below, a seller at
its limit or above, and anywhere without a limit. -/
def mayTradeAt (side : Side) (limit : Option Nat) (key : Nat) : Bool :=
  match side, limit with
  | _, none => true
  | .buy, some l => decide (key ≤ l)
  | .sell, some l => decide (l ≤ key)

/-- The makers a taker may trade with, best price first and in arrival order
inside a level. -/
def eligible (book : OrderBook ℚ) (side : Side) (limit : Option Nat) :
    List (Nat × Order ℚ) :=
  (queueOf (ladder side (book.makers side))).filter fun e => mayTradeAt side limit e.1

/-- The makers beyond the taker's limit. -/
def ineligible (book : OrderBook ℚ) (side : Side) (limit : Option Nat) :
    List (Nat × Order ℚ) :=
  (queueOf (ladder side (book.makers side))).filter fun e => !mayTradeAt side limit e.1

/-- `consumed` is what a taker consumes of `consumed ++ rest` in priority order. -/
structure ConsumesPrefix (taker : Order ℚ) (consumed rest : List (Nat × Order ℚ)) :
    Prop where
  hungry : ∀ init maker tail, consumed = init ++ maker :: tail →
    (afterTrades taker init).isFilled = false
  used_up : ∀ init key maker next tail, consumed = init ++ (key, maker) :: next :: tail →
    (reduced maker (exchanged (afterTrades taker init) maker)).isFilled = true
  stop : (afterTrades taker consumed).isFilled = true ∨ rest = []

/-! ## The code against it -/

section Residues

variable {taker maker : Order ℚ} {key : Nat} {rest : List (Nat × Order ℚ)}

theorem residues_of_used (h : (maker.debit (tradeQty taker maker)).isFilled = true) :
    residues taker ((key, maker) :: rest) =
      residues (taker.debit (tradeQty taker maker)) rest :=
  if_pos h

theorem residues_of_left (h : (maker.debit (tradeQty taker maker)).isFilled = false) :
    residues taker ((key, maker) :: rest) =
      (key, maker.debit (tradeQty taker maker)) ::
        residues (taker.debit (tradeQty taker maker)) rest :=
  if_neg (Bool.eq_false_iff.1 h)

end Residues

/-- The greedy pass consumes a prefix of its list. -/
theorem priorityPass_consumes (ts : Int) (q : List (Nat × Order ℚ)) (taker : Order ℚ)
    (ht : 0 ≤ taker.qty) (hq : ∀ e ∈ q, 0 ≤ e.2.qty) :
    ∃ consumed rest, q = consumed ++ rest ∧ ConsumesPrefix taker consumed rest ∧
      priorityPass ts taker q =
        ⟨tradeEvents ts taker consumed, afterTrades taker consumed,
          residues taker consumed ++ rest⟩ := by
  induction q generalizing taker with
  | nil => exact ⟨[], [], rfl, ⟨by simp, by simp, Or.inr rfl⟩, rfl⟩
  | cons e q ih =>
      obtain ⟨key, maker⟩ := e
      cases hf : taker.isFilled with
      | true =>
          refine ⟨[], (key, maker) :: q, rfl, ⟨by simp, by simp, Or.inl hf⟩, ?_⟩
          exact priorityPass_filled ts hf _
      | false =>
          let taker' := taker.debit (tradeQty taker maker)
          cases hm : (maker.debit (tradeQty taker maker)).isFilled with
          | true =>
              obtain ⟨consumed, rest, rfl, hcons, hpass⟩ := ih taker' ht
                fun e he => hq e (List.mem_cons_of_mem _ he)
              refine ⟨(key, maker) :: consumed, rest, rfl, ⟨?_, ?_, hcons.stop⟩, ?_⟩
              · intro init x tail hsplit
                cases init with
                | nil => exact hf
                | cons y init =>
                    obtain ⟨rfl, htail⟩ := List.cons.inj hsplit
                    exact hcons.hungry init x tail htail
              · intro init k m next tail hsplit
                cases init with
                | nil =>
                    obtain ⟨hhead, _⟩ := List.cons.inj hsplit
                    cases hhead
                    exact hm
                | cons y init =>
                    obtain ⟨rfl, htail⟩ := List.cons.inj hsplit
                    exact hcons.used_up init k m next tail htail
              · rw [priorityPass_used ts hf hm, hpass, residues_of_used hm]
                rfl
          | false =>
              have hfilled : taker'.isFilled = true :=
                (isFilled_debit_or taker maker ht
                  (hq _ List.mem_cons_self)).resolve_right
                  (by simp [hm])
              refine ⟨[(key, maker)], q, rfl, ⟨?_, ?_, Or.inl hfilled⟩, ?_⟩
              · intro init x tail hsplit
                cases init with
                | nil => exact hf
                | cons y init => simp at hsplit
              · intro init k m next tail hsplit
                cases init with
                | nil => simp at hsplit
                | cons y init => simp at hsplit
              · rw [priorityPass_last ts hf hm, residues_of_left hm]
                rfl

theorem outOfReach_eq_not_mayTradeAt (side : Side) (limit : Option Nat) (key : Nat) :
    outOfReach side limit key = !mayTradeAt side limit key := by
  cases limit with
  | none => rfl
  | some l =>
      cases side with
      | buy => simp [outOfReach, beyond, mayTradeAt, ← decide_not]
      | sell => simp [outOfReach, beyond, mayTradeAt, ← decide_not]

/-- Filtering levels by key is filtering their orders by key. -/
theorem queueOf_filter (l : Ladder ℚ) (p : Nat → Bool) :
    queueOf (l.filter fun e => p e.1) = (queueOf l).filter fun e => p e.1 := by
  induction l with
  | nil => rfl
  | cons e l ih =>
      obtain ⟨key, queue⟩ := e
      rw [queueOf_cons, List.filter_append, ← ih]
      cases hp : p key with
      | true =>
          have hall : (queue.map (Prod.mk key)).filter (fun e => p e.1) =
              queue.map (Prod.mk key) := by
            rw [List.filter_eq_self]
            intro e he
            obtain ⟨o, _, rfl⟩ := List.mem_map.1 he
            exact hp
          rw [List.filter_cons, if_pos hp, queueOf_cons, hall]
      | false =>
          have hnone : (queue.map (Prod.mk key)).filter (fun e => p e.1) = [] := by
            rw [List.filter_eq_nil_iff]
            intro e he
            obtain ⟨o, _, rfl⟩ := List.mem_map.1 he
            simp [hp]
          rw [List.filter_cons, if_neg (by simp [hp]), hnone, List.nil_append]

theorem queueOf_reachable (side : Side) (limit : Option Nat) (book : OrderBook ℚ) :
    queueOf (reachable side limit (ladder side (book.makers side))) =
      eligible book side limit := by
  rw [reachable, queueOf_filter _ fun k => !outOfReach side limit k, eligible]
  simp only [outOfReach_eq_not_mayTradeAt, Bool.not_not]

theorem queueOf_unreachable (side : Side) (limit : Option Nat) (book : OrderBook ℚ) :
    queueOf (unreachable side limit (ladder side (book.makers side))) =
      ineligible book side limit := by
  rw [unreachable, queueOf_filter _ fun k => outOfReach side limit k, ineligible]
  simp only [outOfReach_eq_not_mayTradeAt]

/-- On a reachable book matching a valid order ends, and consumes the eligible
makers in price-time priority.  Makers that are not consumed stay as they were,
in place, and so does the taker's own side. -/
theorem matchOrder_price_time_priority {symbol : Symbol} {book : OrderBook ℚ}
    {history : List (Order ℚ)} {past : List (TradeEvent ℚ)}
    (hrun : BookRun symbol book history past) (order : Order ℚ)
    (hvalid : validateOrder order = .ok ()) (ts : Int) :
    ∃ limit, limitKey order = .ok limit ∧ ∃ book' taker' events consumed rest,
      (∃ bound, ∀ fuel, bound < fuel →
        matchOrder fuel book order [] ts = .ok (book', taker', events)) ∧
      eligible book order.side limit = consumed ++ rest ∧
      ConsumesPrefix order consumed rest ∧
      events = tradeEvents ts order consumed ∧ taker' = afterTrades order consumed ∧
      queueOf (ladder order.side (book'.makers order.side)) =
        residues order consumed ++ rest ++ ineligible book order.side limit ∧
      book'.makers order.side.opposite = book.makers order.side.opposite := by
  have inv := hrun.bookInv
  obtain ⟨hqty, limit, hlimit, _⟩ := limitKey_of_valid hvalid
  refine ⟨limit, hlimit, ?_⟩
  obtain ⟨levels, hlevels, bound, hmatch⟩ := inv.matchOrder hqty.le hlimit ts
  obtain ⟨hevents, htaker, hleft⟩ := inv.sweepOf_eq hqty.le limit ts
  obtain ⟨consumed, rest, hsplit, hcons, hpass⟩ := priorityPass_consumes ts
    (queueOf (reachable order.side limit (ladder order.side (book.makers order.side))))
    order hqty.le (fun e he => (inv.reachable_resting order.side limit e he).qty_pos.le)
  refine ⟨_, _, _, consumed, rest, ⟨bound, hmatch⟩, ?_, hcons, ?_, ?_, ?_, ?_⟩
  · rw [← queueOf_reachable, hsplit]
  · rw [hevents, hpass]
  · rw [htaker, hpass]
  · rw [makers_setMakers, hlevels, hleft, hpass, queueOf_unreachable]
  · exact makers_opposite_setMakers _ _ _

/-- A market order meets two asks, the cheaper one first, and leaves one unit of
the other. -/
theorem matchOrder_price_time_priority_two_asks :
    let taker : Order ℚ := Order.market 3 ['X'] .buy 3 0
    let trades : List (TradeEvent ℚ) :=
      [.fill ⟨3, ['X'], .buy, 101, 2, 7⟩, .fill ⟨2, ['X'], .sell, 101, 2, 7⟩,
        .fill ⟨3, ['X'], .buy, 102, 1, 7⟩, .fill ⟨1, ['X'], .sell, 102, 1, 7⟩]
    ∃ book history past, BookRun ['X'] book history past ∧
      (eligible book .buy none).map (fun e => e.2.id) = [2, 1] ∧
      ∃ limit book' taker' consumed rest, limitKey taker = .ok limit ∧
        matchOrder 9 book taker [] 7 = .ok (book', taker', trades) ∧
        eligible book .buy limit = consumed ++ rest ∧
        ConsumesPrefix taker consumed rest ∧
        tradeEvents 7 taker consumed = trades := by
  intro taker trades
  obtain ⟨book, past, hrun, hp⟩ := exists_bookRun ['X'] 9
    [Order.limit 1 ['X'] .sell 102 2 0, Order.limit 2 ['X'] .sell 101 2 0]
    (by
      intro o ho
      simp only [List.mem_cons, List.not_mem_nil, or_false] at ho
      rcases ho with rfl | rfl
      · exact .limit _ _ _ _ _ _
      · exact .limit _ _ _ _ _ _)
    (fun r => decide ((eligible r.1 .buy none).map (fun e => e.2.id) = [2, 1]) &&
      (matchOrder 9 r.1 taker [] 7).toOption.any
        fun (m : OrderBook ℚ × Order ℚ × List (TradeEvent ℚ)) => decide (m.2.2 = trades))
    (by decide +kernel)
  rw [Bool.and_eq_true, decide_eq_true_eq] at hp
  obtain ⟨⟨book', taker', events⟩, hmatch, hevents⟩ := exists_ok hp.2
  obtain rfl : events = trades := of_decide_eq_true hevents
  obtain ⟨limit, hlimit, _, _, _, consumed, rest, ⟨bound, hends⟩, hsplit, hcons,
      htrades, _⟩ :=
    matchOrder_price_time_priority hrun taker (by decide +kernel) 7
  -- more fuel does not change the result that nine units gave
  have hmore := matchOrder_mono (Nat.le_max_left 9 (bound + 1)) hmatch
  rw [hends _ (by omega)] at hmore
  cases Except.ok.inj hmore
  exact ⟨book, _, past, hrun, hp.1, limit, book', taker', consumed, rest, hlimit,
    hmatch, hsplit, hcons, htrades.symm⟩

end Candlestore.Matching
