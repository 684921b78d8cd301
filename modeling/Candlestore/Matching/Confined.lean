import Candlestore.Matching.AnyOrder
import Candlestore.Matching.Paper

/-!
# What validation confines

`validate_order` is the only barrier before both matching paths.  It checks the
quantity and the price of an order, so an order may come with more `remaining`
than its quantity or with the symbol of another book.  This file shows that
those two fields are all it misses: as long as no accepted order has them
wrong, no order is filled beyond its quantity and every fill of a book is of
its symbol.

The fills of an order are told apart by its number in the run, not by its id,
which is a free field too.  The book never reads ids: renaming them in all
submissions renames them in all results (`trySubmitAll_rename`), so the run in
which every order carries its number shows whose fills are whose.

## Main results

* `trySubmitAll_rename`: the book is equivariant under renaming ids.
* `Confined.submitted`: what one submission does to the accounts.
* `accepted_orders_confined`: the bound over whole runs of both engines.
-/

namespace Candlestore.Matching

open Candlestore Lib

/-! ## Renaming ids -/

section Rename

variable {F : Type}

/-- The same order under another id. -/
def Order.rename (o : Order F) (φ : Nat → Nat) : Order F := { o with id := φ o.id }

/-- The same event under another id. -/
def TradeEvent.rename (e : TradeEvent F) (φ : Nat → Nat) : TradeEvent F :=
  match e with
  | .fill f => .fill { f with orderId := φ f.orderId }
  | .cancel id r => .cancel (φ id) r

/-- The same levels with every id replaced. -/
def renameLevels (φ : Nat → Nat) (levels : Levels F) : Levels F :=
  levels.mapVal (List.map fun o => o.rename φ)

/-- The same book with every id replaced. -/
def OrderBook.rename (book : OrderBook F) (φ : Nat → Nat) : OrderBook F :=
  ⟨book.symbol, renameLevels φ book.bids, renameLevels φ book.asks⟩

variable (φ : Nat → Nat)

theorem OrderBook.rename_makers (book : OrderBook F) (side : Side) :
    (book.rename φ).makers side = renameLevels φ (book.makers side) := by
  cases side <;> rfl

theorem OrderBook.rename_setMakers (book : OrderBook F) (side : Side)
    (levels : Levels F) :
    (book.setMakers side levels).rename φ =
      (book.rename φ).setMakers side (renameLevels φ levels) := by
  cases side <;> rfl

theorem bestKey_rename (side : Side) (levels : Levels F) :
    bestKey side (renameLevels φ levels) = bestKey side levels := by
  cases side with
  | buy => exact SortedMap.mapVal_firstKey? _ levels
  | sell => exact SortedMap.mapVal_lastKey? _ levels

theorem dropEmptyLevel_rename (book : OrderBook F) (side : Side) (key : Nat) :
    dropEmptyLevel (book.rename φ) side key =
      (dropEmptyLevel book side key).rename φ := by
  have hempty : ((((book.rename φ).makers side).get? key).map List.isEmpty).getD true =
      (((book.makers side).get? key).map List.isEmpty).getD true := by
    rw [OrderBook.rename_makers, renameLevels, SortedMap.mapVal_get?, Option.map_map]
    cases (book.makers side).get? key with
    | none => rfl
    | some level => cases level <;> rfl
  rw [dropEmptyLevel, dropEmptyLevel, hempty]
  split
  · rw [OrderBook.rename_setMakers, OrderBook.rename_makers]
    exact congrArg _ (SortedMap.mapVal_erase _ _ key).symm
  · rfl

theorem pushBack_rename (levels : Levels F) (key : Nat) (o : Order F) :
    pushBack (renameLevels φ levels) key (o.rename φ) =
      renameLevels φ (pushBack levels key o) := by
  rw [pushBack, pushBack, renameLevels, renameLevels, SortedMap.mapVal_insert,
    SortedMap.mapVal_get?, List.map_append]
  cases levels.get? key <;> rfl

variable [F64 F]

/-- A level, a taker and the events so far, renamed. -/
def renameFill (r : Order F × List (Order F) × List (TradeEvent F)) :
    Order F × List (Order F) × List (TradeEvent F) :=
  (r.1.rename φ, r.2.1.map (fun o => o.rename φ), r.2.2.map fun e => e.rename φ)

/-- A book, a taker and the events so far, renamed. -/
def renameMatch (r : OrderBook F × Order F × List (TradeEvent F)) :
    OrderBook F × Order F × List (TradeEvent F) :=
  (r.1.rename φ, r.2.1.rename φ, r.2.2.map fun e => e.rename φ)

theorem fillLoop_rename (key : Nat) (ts : Int) (fuel : Nat) (taker : Order F)
    (level : List (Order F)) (events : List (TradeEvent F)) :
    fillLoop key ts fuel (taker.rename φ) (level.map fun o => o.rename φ)
        (events.map fun e => e.rename φ) =
      renameFill φ <$> fillLoop key ts fuel taker level events := by
  induction fuel generalizing taker level events with
  | zero => rfl
  | succ fuel ih =>
      cases level with
      | nil =>
          rw [List.map_nil, fillLoop, fillLoop, ite_self, ite_self]
          rfl
      | cons maker rest =>
          have hpair : fillPair key ts (taker.rename φ) (maker.rename φ) =
              (fillPair key ts taker maker).map fun e => e.rename φ := rfl
          have hfilled : (taker.rename φ).isFilled = taker.isFilled := rfl
          rw [List.map_cons, fillLoop, fillLoop, hfilled]
          split
          · rfl
          · dsimp only
            rw [← ih, List.map_append, ← hpair]
            congr 1
            show (if (maker.debit (tradeQty taker maker)).isFilled = true then _
              else _) = _
            split <;> rfl

theorem fillAt_rename (fuel : Nat) (book : OrderBook F) (key : Nat) (taker : Order F)
    (events : List (TradeEvent F)) (ts : Int) :
    fillAt fuel (book.rename φ) key (taker.rename φ)
    (events.map fun e => e.rename φ) ts =
      renameMatch φ <$> fillAt fuel book key taker events ts := by
  have hside : (taker.rename φ).side = taker.side := rfl
  rw [fillAt, fillAt, hside, OrderBook.rename_makers, renameLevels,
    SortedMap.mapVal_get?]
  cases (book.makers taker.side).get? key with
  | none => rfl
  | some level =>
      simp only [Option.map_some, fillLoop_rename, bind_map_left, map_bind]
      congr 1
      funext r
      simp only [renameFill, map_pure, renameMatch, OrderBook.rename_setMakers,
        renameLevels,
        SortedMap.mapVal_insert]

theorem matchLoop_rename (side : Side) (limit : Option Nat) (ts : Int) (inner fuel : Nat)
    (book : OrderBook F) (order : Order F) (events : List (TradeEvent F)) :
    matchLoop side limit ts inner fuel (book.rename φ) (order.rename φ)
        (events.map fun e => e.rename φ) =
      renameMatch φ <$> matchLoop side limit ts inner fuel book order events := by
  induction fuel generalizing book order events with
  | zero => rfl
  | succ fuel ih =>
      rw [matchLoop, matchLoop, OrderBook.rename_makers, bestKey_rename]
      cases bestKey side (book.makers side) with
      | none => rfl
      | some best =>
          dsimp only
          split
          · rfl
          · simp only [fillAt_rename, bind_map_left, map_bind]
            congr 1
            funext r
            have hfilled : (r.2.1.rename φ).isFilled = r.2.1.isFilled := rfl
            simp only [renameMatch, dropEmptyLevel_rename, hfilled]
            split
            · rfl
            · exact ih _ _ _

theorem limitKey_rename (o : Order F) : limitKey (o.rename φ) = limitKey o := rfl

theorem matchOrder_rename (fuel : Nat) (book : OrderBook F) (order : Order F)
    (events : List (TradeEvent F)) (ts : Int) :
    matchOrder fuel (book.rename φ) (order.rename φ)
    (events.map fun e => e.rename φ) ts =
      renameMatch φ <$> matchOrder fuel book order events ts := by
  have hside : (order.rename φ).side = order.side := rfl
  rw [matchOrder, matchOrder, hside]
  cases order.side with
  | buy => simp only [matchBuy, limitKey_rename, matchLoop_rename, map_bind]
  | sell => simp only [matchSell, limitKey_rename, matchLoop_rename, map_bind]

theorem available_rename (levels : Levels F) (reach : Nat → Bool) :
    available (renameLevels φ levels) reach = available levels reach := by
  have hlist : ∀ es : List (Nat × List (Order F)),
      (((es.map fun e => (e.1, e.2.map fun o => o.rename φ)).filter fun e =>
        reach e.1).flatMap
        Prod.snd).map Order.remaining =
      ((es.filter fun e => reach e.1).flatMap Prod.snd).map Order.remaining := by
    intro es
    rw [List.filter_map, List.flatMap_map, List.map_flatMap, List.map_flatMap]
    congr 1
    funext e
    rw [List.map_map]
    rfl
  exact congrArg (List.foldl _ _) (hlist levels.entries)

theorem canFill_rename (book : OrderBook F) (order : Order F) :
    canFill (book.rename φ) (order.rename φ) = canFill book order := by
  have havail : ∀ side limit, availableTo (book.rename φ) side limit =
      availableTo book side limit := by
    intro side limit
    cases side with
    | buy =>
        simp only [availableTo]
        exact available_rename φ book.asks _
    | sell =>
        simp only [availableTo]
        exact available_rename φ book.bids _
  simp only [canFill, limitKey_rename, havail]
  rfl

theorem rest_rename (book : OrderBook F) (order : Order F) :
    rest (book.rename φ)
    (order.rename φ) = (fun b => b.rename φ) <$> rest book order := by
  have hprice : (order.rename φ).price = order.price := rfl
  have hside : (order.rename φ).side = order.side := rfl
  rw [rest, rest, hprice]
  cases order.price with
  | none => rfl
  | some p =>
      simp only [map_bind, hside]
      congr 1
      funext key
      cases order.side with
      | buy =>
          simp only [map_pure, OrderBook.rename]
          rw [pushBack_rename]
      | sell =>
          simp only [map_pure, OrderBook.rename]
          rw [pushBack_rename]

/-- A book and the events of a submission, renamed. -/
def renameOutcome (r : OrderBook F × List (TradeEvent F)) :
    OrderBook F × List (TradeEvent F) :=
  (r.1.rename φ, r.2.map fun e => e.rename φ)

theorem settle_rename (book : OrderBook F) (order : Order F)
    (events : List (TradeEvent F)) :
    settle (book.rename φ) (order.rename φ) (events.map fun e => e.rename φ) =
      renameOutcome φ <$> settle book order events := by
  have hfilled : (order.rename φ).isFilled = order.isFilled := rfl
  have hkind : (order.rename φ).kind = order.kind := rfl
  have hcancel : ∀ reason : CancelReason,
      events.map (fun e => e.rename φ) ++
        [TradeEvent.cancel (order.rename φ).id reason] =
        (events ++ [TradeEvent.cancel order.id reason]).map fun e : TradeEvent F =>
          e.rename φ := by
    intro reason
    rw [List.map_append]
    rfl
  rw [settle, settle, hfilled, hkind]
  split
  · rfl
  · cases order.kind with
    | limit =>
        simp only [rest_rename, bind_map_left, map_bind, map_pure]
        rfl
    | ioc => exact congrArg (fun ev => Except.ok (book.rename φ, ev)) (hcancel _)
    | market => exact congrArg (fun ev => Except.ok (book.rename φ, ev)) (hcancel _)
    | fok => rfl

theorem submitValidated_rename (fuel : Nat) (book : OrderBook F) (order : Order F)
    (ts : Int) :
    submitValidated fuel (book.rename φ) (order.rename φ) ts =
      renameOutcome φ <$> submitValidated fuel book order ts := by
  have hmatch := matchOrder_rename φ fuel book order [] ts
  rw [List.map_nil] at hmatch
  by_cases hfok : order.kind = .fok
  · have hfok' : (order.rename φ).kind = .fok := hfok
    simp only [submitValidated, hfok, hfok', canFill_rename, hmatch,
      bind_map_left, map_bind]
    congr 1
    funext fillable
    cases fillable with
    | false => rfl
    | true =>
        simp only [Bool.not_true, Bool.false_eq_true, if_false, map_bind, map_pure]; rfl
  · have hfok' : (order.rename φ).kind ≠ .fok := hfok
    rw [submitValidated_eq_settle hfok, submitValidated_eq_settle hfok', hmatch]
    simp only [bind_map_left, map_bind]
    congr 1
    funext r
    exact settle_rename φ r.1 r.2.1 r.2.2

/-- The result of a strict submission, renamed. -/
def renameResult (r : Except (BookError F) (List (TradeEvent F))) :
    Except (BookError F) (List (TradeEvent F)) :=
  (fun events => events.map fun e => e.rename φ) <$> r

theorem trySubmit_rename (fuel : Nat) (book : OrderBook F) (order : Order F) (ts : Int) :
    trySubmit fuel (book.rename φ) (order.rename φ) ts =
      (fun r => (r.1.rename φ, renameResult φ r.2)) <$> trySubmit fuel book
        order ts := by
  have hvalid : validateOrder (order.rename φ) = validateOrder order := rfl
  rw [trySubmit, trySubmit, hvalid]
  cases validateOrder order with
  | error e => rfl
  | ok u =>
      simp only [submitValidated_rename, bind_map_left, map_bind, map_pure]
      rfl

end Rename

/-! ## Runs of strict submissions -/

section Runs

variable {F : Type} [F64 F]

/-- Strict submissions one after the other, with their results. -/
def trySubmitAll (fuel : Nat) (book : OrderBook F) :
    List (Order F × Int) →
      Except Stop (OrderBook F × List (Except (BookError F) (List (TradeEvent F))))
  | [] => .ok (book, [])
  | (order, ts) :: rest => do
      let (book', r) ← trySubmit fuel book order ts
      let (book'', rs) ← trySubmitAll fuel book' rest
      return (book'', r :: rs)

/-- Renaming the ids of all submissions renames the ids of all results. -/
theorem trySubmitAll_rename (φ : Nat → Nat) (fuel : Nat) (book : OrderBook F)
    (subs : List (Order F × Int)) :
    trySubmitAll fuel (book.rename φ) (subs.map fun s => (s.1.rename φ, s.2)) =
      (fun r => (r.1.rename φ, r.2.map (renameResult φ))) <$> trySubmitAll fuel
        book subs := by
  induction subs generalizing book with
  | nil => rfl
  | cons s rest ih =>
      obtain ⟨order, ts⟩ := s
      simp only [List.map_cons, trySubmitAll, trySubmit_rename, bind_map_left,
        ih, map_bind,
        map_pure]

/-- The events of accepted submissions, in order. -/
def acceptedEvents (results : List (Except (BookError F) (List (TradeEvent F)))) :
    List (TradeEvent F) :=
  results.flatMap fun r => r.toOption.getD []

/-- Every submission with its number, counted from `n`, as the id of its order. -/
def numberedFrom (n : Nat) (subs : List (Order F × Int)) : List (Order F × Int) :=
  (subs.zipIdx n).map fun s => ({ s.1.1 with id := s.2 }, s.1.2)

end Runs

/-! ## The account of an order -/

/-- What the orders with number `k` among `q` have remaining. -/
def remainingOf (k : Nat) (q : List (Nat × Order ℚ)) : ℚ :=
  (q.map fun e => if e.2.id = k then e.2.remaining else 0).sum

@[simp] theorem remainingOf_append (k : Nat) (a b : List (Nat × Order ℚ)) :
    remainingOf k (a ++ b) = remainingOf k a + remainingOf k b := by
  rw [remainingOf, List.map_append, List.sum_append]
  rfl

@[simp] theorem remainingOf_cons (k : Nat) (e : Nat × Order ℚ)
    (q : List (Nat × Order ℚ)) :
    remainingOf k (e :: q) = (if e.2.id = k then e.2.remaining else 0) +
      remainingOf k q := by
  rw [remainingOf, List.map_cons, List.sum_cons]
  rfl

theorem remainingOf_perm {k : Nat} {a b : List (Nat × Order ℚ)} (h : a.Perm b) :
    remainingOf k a = remainingOf k b :=
  (h.map _).sum_eq

theorem remainingOf_nonneg {k : Nat} {q : List (Nat × Order ℚ)}
    (hq : ∀ e ∈ q, 0 ≤ e.2.remaining) : 0 ≤ remainingOf k q := by
  apply List.sum_nonneg
  intro r hr
  obtain ⟨e, he, rfl⟩ := List.mem_map.1 hr
  split
  · exact hq e he
  · exact le_rfl

/-- A pass moves quantity from what remains to fills, and drops dust. -/
theorem priorityPass_account (ts : Int) (k : Nat) (q : List (Nat × Order ℚ))
    (taker : Order ℚ) :
    filledQty k (priorityPass ts taker q).events + remainingOf k
      (priorityPass ts taker q).left +
        (if taker.id = k then (priorityPass ts taker q).taker.remaining else 0) ≤
      remainingOf k q + if taker.id = k then taker.remaining else 0 := by
  have hpass := pass_priorityPass ts taker q
  generalize priorityPass ts taker q = m at hpass ⊢
  induction hpass with
  | stop _ => rw [filledQty_nil, zero_add]
  | @last taker key maker rest _ _ =>
      have hle := tradeQty_le_maker taker maker
      have hdebit : ∀ o : Order ℚ, (o.debit (tradeQty taker maker)).remaining =
          o.remaining - tradeQty taker maker := fun _ => rfl
      rw [filledQty_fillPair, remainingOf_cons, remainingOf_cons]
      simp only [Order.debit_id, hdebit]
      split_ifs <;> linarith
  | @used taker key maker rest m _ _ _ ih =>
      have hle := tradeQty_le_maker taker maker
      rw [Order.debit_id, Order.debit_remaining] at ih
      rw [filledQty_append, filledQty_fillPair, remainingOf_cons]
      split_ifs at ih ⊢ <;> linarith

/-- The fills of a pass carry the symbol of the orders. -/
theorem priorityPass_symbol (ts : Int) {symbol : Symbol} (q : List (Nat × Order ℚ))
    (taker : Order ℚ) (ht : taker.symbol = symbol) (hq : ∀ e ∈ q, e.2.symbol = symbol) :
    ∀ f, .fill f ∈ (priorityPass ts taker q).events → f.symbol = symbol := by
  have hpair : ∀ {taker maker : Order ℚ} {key : Nat}, taker.symbol = symbol →
      maker.symbol = symbol → ∀ f, .fill f ∈ fillPair key ts taker maker →
      f.symbol = symbol := by
    intro taker maker key ht hm f hf
    rcases List.mem_cons.1 hf with heq | hf
    · cases heq
      exact ht
    · rw [List.mem_singleton] at hf
      cases hf
      exact hm
  have hpass := pass_priorityPass ts taker q
  generalize priorityPass ts taker q = m at hpass ⊢
  induction hpass with
  | stop _ => exact fun f hf => absurd hf List.not_mem_nil
  | last _ _ => exact hpair ht (hq _ List.mem_cons_self)
  | used _ _ _ ih =>
      intro f hf
      rcases List.mem_append.1 hf with hf | hf
      · exact hpair ht (hq _ List.mem_cons_self) f hf
      · exact ih ht (fun e he => hq e (List.mem_cons_of_mem _ he)) f hf

section Account

variable {book book' : OrderBook ℚ} (live : LiveBook book) {order : Order ℚ}
  {limit : Option Nat} {ts : Int} {events : List (TradeEvent ℚ)}
include live

/-- A sweep moves quantity from what remains to fills. -/
theorem LiveBook.sweep_account (hqty : 0 < order.qty) {levels : Levels ℚ}
    (hlevels : ladder order.side levels = (sweepOf book order limit ts).left) (k : Nat) :
    filledQty k (sweepOf book order limit ts).events +
        remainingOf k (restingOrders (book.setMakers order.side levels)) +
        (if order.id = k then (sweepOf book order limit ts).taker.remaining else 0) ≤
      remainingOf k (restingOrders book) +
        if order.id = k then order.remaining else 0 := by
  obtain ⟨hevents, htaker, _⟩ :=
    sweepOf_eq_priorityPass (live.qty_nonneg order.side) hqty.le limit ts
  have hpass := priorityPass_account ts k
    (queueOf (reachable order.side limit (ladder order.side (book.makers order.side))))
    order
  rw [remainingOf_perm (restingOrders_perm _ order.side),
    remainingOf_perm (restingOrders_perm book order.side),
    restingQueue_opposite_setMakers, live.restingQueue_swept hqty.le hlevels,
    restingQueue_split order.side limit, hevents, htaker]
  simp only [remainingOf_append]
  linarith

/-- What a sweep takes from the taker is no more than it had, and nothing from
one that was done. -/
theorem LiveBook.taker_spent (hqty : 0 < order.qty) :
    order.remaining - (sweepOf book order limit ts).taker.remaining ≤
      max order.remaining 0 := by
  obtain ⟨_, htaker, _⟩ :=
    sweepOf_eq_priorityPass (live.qty_nonneg order.side) hqty.le limit ts
  rw [htaker]
  cases hf : order.isFilled with
  | true =>
      rw [priorityPass_filled ts hf, sub_self]
      exact le_max_right _ _
  | false =>
      have hpos := (Live.mk hqty hf).remaining_pos
      have hreach : ∀ e ∈ queueOf (reachable order.side limit
          (ladder order.side (book.makers order.side))), 0 ≤ e.2.remaining := by
        intro e he
        refine (live order.side e ?_).remaining_pos.le
        rw [restingQueue_split order.side limit]
        exact List.mem_append_left _ he
      have hnonneg := (priorityPass_remaining ts _ order hpos.le hreach).1
      have hmax := le_max_left order.remaining 0
      linarith

/-- What a submission adds to the account of an order: at most what the taker
came with. -/
theorem Settled.account (hqty : 0 < order.qty)
    (h : Settled book order limit ts book' events) (k : Nat) :
    filledQty k events + remainingOf k (restingOrders book') ≤
      remainingOf k (restingOrders book) +
        if order.id = k then max order.remaining 0 else 0 := by
  have hid : (sweepOf book order limit ts).taker.id = order.id :=
    (congrArg Order.id (sweepOf_original book order limit ts) :)
  have hmax : 0 ≤ if order.id = k then max order.remaining 0 else 0 := by
    split
    · exact le_max_right _ _
    · exact le_rfl
  cases h with
  | killed reason =>
      rw [filledQty_cancel]
      linarith
  | swept levels tail hlevels htail =>
      have hnone : filledQty k tail = 0 := by
        rcases htail with rfl | ⟨reason, rfl⟩
        · exact filledQty_nil k
        · exact filledQty_cancel k order.id reason
      have hsweep := live.sweep_account hqty hlevels k
      have hspent : order.remaining - (sweepOf book order limit ts).taker.remaining ≤
          max order.remaining 0 := live.taker_spent hqty
      rw [filledQty_append, hnone, add_zero]
      split_ifs at hsweep ⊢ <;> linarith
  | rested levels key hlevels hhungry =>
      have hsweep := live.sweep_account hqty hlevels k
      have hmaxle := le_max_left order.remaining 0
      rw [remainingOf_perm (restingOrders_restAt _ key _), remainingOf_cons, hid]
      split_ifs at hsweep ⊢ <;> linarith

end Account

/-! ## Runs of a book -/

/-- After `n` submissions, numbered in turn: every resting order and every fill
is of the symbol, and fills and remaining quantity of order `k` stay within
`cap k`. -/
structure Confined (symbol : Symbol) (cap : Nat → ℚ) (n : Nat) (book : OrderBook ℚ)
    (past : List (TradeEvent ℚ)) : Prop where
  live : LiveBook book
  symbols : ∀ e ∈ restingOrders book, e.2.symbol = symbol
  fills : ∀ f, .fill f ∈ past → f.symbol = symbol
  account : ∀ k, filledQty k past + remainingOf k (restingOrders book) ≤
    if k < n then cap k else 0

theorem confined_new (symbol : Symbol) (cap : Nat → ℚ) :
    Confined symbol cap 0 (OrderBook.new symbol) [] where
  live := liveBook_new symbol
  symbols := fun _ he => absurd he List.not_mem_nil
  fills := fun _ hf => absurd hf List.not_mem_nil
  account := fun _ => le_of_eq (zero_add _)

section Confined

variable {symbol : Symbol} {cap : Nat → ℚ} {n : Nat} {book book' : OrderBook ℚ}
  {past : List (TradeEvent ℚ)} (inv : Confined symbol cap n book past)
include inv

theorem Confined.filled_le {k : Nat} (hk : k < n) : filledQty k past ≤ cap k := by
  have haccount := inv.account k
  rw [if_pos hk] at haccount
  have hnonneg : 0 ≤ remainingOf k (restingOrders book) :=
    remainingOf_nonneg fun e he => ((liveBook_iff book).1 inv.live e he).remaining_pos.le
  linarith

/-- A refused submission only uses up its number. -/
theorem Confined.refused (hcap : 0 ≤ cap n) : Confined symbol cap (n + 1) book past where
  live := inv.live
  symbols := inv.symbols
  fills := inv.fills
  account := by
    intro k
    have haccount := inv.account k
    rcases Nat.lt_trichotomy k n with hk | rfl | hk
    · rw [if_pos hk] at haccount
      rwa [if_pos (by omega)]
    · rw [if_neg (lt_irrefl k)] at haccount
      rw [if_pos (Nat.lt_succ_self k)]
      exact haccount.trans hcap
    · rw [if_neg (by omega)] at haccount
      rwa [if_neg (by omega)]

theorem Confined.accepted {order : Order ℚ} {fuel : Nat} {ts : Int}
    {events : List (TradeEvent ℚ)} (hvalid : validateOrder order = .ok ())
    (hid : order.id = n) (hsym : order.symbol = symbol)
    (hrem : order.remaining ≤ order.qty) (hcap : cap n = order.qty)
    (h : submitValidated fuel book order ts = .ok (book', events)) :
    Confined symbol cap (n + 1) book' (past ++ events) := by
  obtain ⟨limit, _, hsettled⟩ := inv.live.settled hvalid h
  have hqty := (limitKey_of_valid hvalid).1
  have htaker : (sweepOf book order limit ts).taker.symbol = symbol :=
    (congrArg Order.symbol (sweepOf_original book order limit ts) :).trans hsym
  have hreach : ∀ e ∈ queueOf (reachable order.side limit
      (ladder order.side (book.makers order.side))), e.2.symbol = symbol := by
    intro e he
    apply inv.symbols
    rw [(restingOrders_perm book order.side).mem_iff,
      restingQueue_split order.side limit]
    exact List.mem_append_left _ (List.mem_append_left _ he)
  have hsweep : ∀ f, .fill f ∈ (sweepOf book order limit ts).events →
      f.symbol = symbol := by
    rw [(sweepOf_eq_priorityPass (inv.live.qty_nonneg order.side) hqty.le limit ts).1]
    exact priorityPass_symbol ts _ order hsym hreach
  refine
    { live := inv.live.submitValidated hvalid h
      symbols := Settled.forall_resting (P := fun o => o.symbol = symbol)
        inv.live hqty.le hsettled (fun _ _ hm _ => hm) (fun _ => htaker) inv.symbols
      fills := ?_
      account := ?_ }
  · intro f hf
    rcases List.mem_append.1 hf with hf | hf
    · exact inv.fills f hf
    · cases hsettled with
      | killed reason => simp at hf
      | rested levels key hlevels hhungry => exact hsweep f hf
      | swept levels tail hlevels htail =>
          rcases List.mem_append.1 hf with hf | hf
          · exact hsweep f hf
          · rcases htail with rfl | ⟨reason, rfl⟩
            · exact absurd hf List.not_mem_nil
            · simp at hf
  · intro k
    have hstep := hsettled.account inv.live hqty k
    have haccount := inv.account k
    rw [filledQty_append]
    rcases Nat.lt_trichotomy k n with hk | rfl | hk
    · rw [if_pos hk] at haccount
      rw [if_neg (by omega)] at hstep
      rw [if_pos (by omega)]
      linarith
    · rw [if_neg (lt_irrefl k)] at haccount
      rw [if_pos hid] at hstep
      rw [if_pos (Nat.lt_succ_self k), hcap]
      have hmax : max order.remaining 0 ≤ order.qty := max_le hrem hqty.le
      linarith
    · rw [if_neg (by omega)] at haccount
      rw [if_neg (by omega)] at hstep
      rw [if_neg (by omega)]
      linarith

end Confined

/-- The number `k` stands for submission `k`: what a valid order may be filled. -/
def capOf (subs : List (Order ℚ × Int)) (k : Nat) : ℚ :=
  match subs[k]? with
  | some s => if validateOrder s.1 = .ok () then s.1.qty else 0
  | none => 0

/-- An accepted order within its quantity and of the symbol of the book. -/
def Proper (symbol : Symbol) (order : Order ℚ) : Prop :=
  validateOrder order = .ok () → order.remaining ≤ order.qty ∧ order.symbol = symbol

theorem capOf_eq {subs : List (Order ℚ × Int)} {k : Nat} {s : Order ℚ × Int}
    (hs : subs[k]? = some s) (hvalid : validateOrder s.1 = .ok ()) :
    capOf subs k = s.1.qty := by
  simp only [capOf, hs, hvalid, if_true]

theorem capOf_nonneg (subs : List (Order ℚ × Int)) (k : Nat) : 0 ≤ capOf subs k := by
  unfold capOf
  split
  · split
    · next hvalid => exact (limitKey_of_valid hvalid).1.le
    · exact le_rfl
  · exact le_rfl

/-- One submission under its number. -/
theorem Confined.trySubmit {symbol : Symbol} {all : List (Order ℚ × Int)} {n fuel : Nat}
    {book book' : OrderBook ℚ} {past : List (TradeEvent ℚ)} {order : Order ℚ} {ts : Int}
    {r : Except (BookError ℚ) (List (TradeEvent ℚ))}
    (inv : Confined symbol (capOf all) n book past) (hget : all[n]? = some (order, ts))
    (hproper : Proper symbol order)
    (h : Matching.trySubmit fuel book { order with id := n } ts = .ok (book', r)) :
    Confined symbol (capOf all) (n + 1) book' (past ++ r.toOption.getD []) := by
  have hvalid : validateOrder { order with id := n } = validateOrder order := rfl
  rw [Matching.trySubmit, hvalid] at h
  cases hv : validateOrder order with
  | error e =>
      simp only [hv, Except.ok.injEq, Prod.mk.injEq] at h
      obtain ⟨rfl, rfl⟩ := h
      have hrefused := inv.refused (capOf_nonneg all n)
      rwa [← List.append_nil past] at hrefused
  | ok u =>
      simp only [hv] at h
      obtain ⟨⟨b, events⟩, hsub, hpure⟩ := (bind_eq_ok _ _ _).1 h
      simp only [pure, Except.pure, Except.ok.injEq, Prod.mk.injEq] at hpure
      obtain ⟨rfl, rfl⟩ := hpure
      obtain ⟨hrem, hsym⟩ := hproper hv
      exact inv.accepted (hvalid.trans hv) rfl hsym hrem (capOf_eq hget hv) hsub

/-- A run of numbered submissions keeps every order within its quantity. -/
theorem Confined.trySubmitAll {symbol : Symbol} {all : List (Order ℚ × Int)} {fuel : Nat}
    (hproper : ∀ s ∈ all, Proper symbol s.1) (subs done : List (Order ℚ × Int))
    (hall : all = done ++ subs) {book book' : OrderBook ℚ} {past : List (TradeEvent ℚ)}
    {results : List (Except (BookError ℚ) (List (TradeEvent ℚ)))}
    (inv : Confined symbol (capOf all) done.length book past)
    (h : Matching.trySubmitAll fuel book (numberedFrom done.length subs) =
      .ok (book', results)) :
    Confined symbol (capOf all) all.length book' (past ++ acceptedEvents results) := by
  induction subs generalizing done book past results with
  | nil =>
      simp only [numberedFrom, List.zipIdx_nil, List.map_nil, Matching.trySubmitAll,
        Except.ok.injEq, Prod.mk.injEq] at h
      obtain ⟨rfl, rfl⟩ := h
      rw [hall, List.append_nil, acceptedEvents, List.flatMap_nil, List.append_nil]
      rwa [hall, List.append_nil] at inv
  | cons s rest ih =>
      obtain ⟨order, ts⟩ := s
      have hget : all[done.length]? = some (order, ts) := by
        rw [hall]
        exact List.getElem?_append_right (le_refl _) ▸ by simp
      have hnext : all = (done ++ [(order, ts)]) ++ rest := by
        rw [hall, List.append_assoc]
        rfl
      have hlen : (done ++ [(order, ts)]).length = done.length + 1 := by
        rw [List.length_append, List.length_singleton]
      have hhead : numberedFrom done.length ((order, ts) :: rest) =
          ({ order with id := done.length }, ts) :: numberedFrom
          (done.length + 1) rest := rfl
      rw [hhead, Matching.trySubmitAll] at h
      obtain ⟨⟨book₁, r⟩, hcall, hrest⟩ := (bind_eq_ok _ _ _).1 h
      obtain ⟨⟨book₂, rs⟩, htail, hpure⟩ := (bind_eq_ok _ _ _).1 hrest
      simp only [pure, Except.pure, Except.ok.injEq, Prod.mk.injEq] at hpure
      obtain ⟨rfl, rfl⟩ := hpure
      have hstep := inv.trySubmit hget (hproper _ (List.mem_of_getElem? hget)) hcall
      rw [← hlen] at hstep htail
      have hfinal := ih (done ++ [(order, ts)]) hnext hstep htail
      rw [List.append_assoc] at hfinal
      exact hfinal

/-! ## From numbers back to ids -/

/-- The id that submission `k` came with. -/
def idOf (subs : List (Order ℚ × Int)) (k : Nat) : Nat :=
  ((subs[k]?).map fun s => s.1.id).getD 0

theorem numberedFrom_rename (subs : List (Order ℚ × Int)) :
    ((numberedFrom 0 subs).map fun s => (s.1.rename (idOf subs), s.2)) = subs := by
  apply List.ext_getElem?
  intro k
  rw [numberedFrom, List.map_map, List.getElem?_map, List.getElem?_zipIdx,
    Option.map_map]
  cases hk : subs[k]? with
  | none => rfl
  | some s =>
      have hid : idOf subs (0 + k) = s.1.id := by
        rw [zero_add, idOf, hk]
        rfl
      simp only [Option.map_some, Function.comp_apply, Order.rename, hid]

theorem acceptedEvents_rename (φ : Nat → Nat)
    (results : List (Except (BookError ℚ) (List (TradeEvent ℚ)))) :
    acceptedEvents (results.map (renameResult φ)) =
      (acceptedEvents results).map fun e => e.rename φ := by
  rw [acceptedEvents, acceptedEvents, List.flatMap_map, List.map_flatMap]
  congr 1
  funext r
  cases r <;> rfl

theorem exists_fill_of_rename {φ : Nat → Nat}
    {results : List (Except (BookError ℚ) (List (TradeEvent ℚ)))} {f : Fill ℚ}
    (hf : .fill f ∈ acceptedEvents (results.map (renameResult φ))) :
    ∃ f', .fill f' ∈ acceptedEvents results ∧ f.symbol = f'.symbol := by
  rw [acceptedEvents_rename] at hf
  obtain ⟨e, he, heq⟩ := List.mem_map.1 hf
  cases e with
  | cancel id r => cases heq
  | fill f' =>
      cases heq
      exact ⟨f', he, rfl⟩

/-- A run of submissions and the same run with numbers for ids go alike. -/
theorem exists_numbered {symbol : Symbol} {fuel : Nat} {subs : List (Order ℚ × Int)}
    {book : OrderBook ℚ} {results : List (Except (BookError ℚ) (List (TradeEvent ℚ)))}
    (hrun : trySubmitAll fuel (OrderBook.new symbol) subs = .ok (book, results)) :
    ∃ book' results',
      trySubmitAll fuel (OrderBook.new symbol)
      (numberedFrom 0 subs) = .ok (book', results') ∧
      results = results'.map (renameResult (idOf subs)) := by
  have hrename := trySubmitAll_rename (idOf subs) fuel (OrderBook.new symbol)
    (numberedFrom 0 subs)
  have hnew : (OrderBook.new symbol : OrderBook ℚ).rename (idOf subs) =
    OrderBook.new symbol := rfl
  rw [numberedFrom_rename, hnew, hrun] at hrename
  cases hnum : trySubmitAll fuel (OrderBook.new symbol) (numberedFrom 0 subs) with
  | error e =>
      rw [hnum] at hrename
      cases hrename
  | ok r =>
      rw [hnum] at hrename
      have hpair : (book, results) =
          (r.1.rename (idOf subs), r.2.map (renameResult (idOf subs))) :=
        Except.ok.inj hrename
      exact ⟨r.1, r.2, rfl, congrArg Prod.snd hpair⟩

/-- The fills of the paper order number `k`. -/
def PaperTrace.filledOf (t : PaperTrace ℚ) (k : Nat) : ℚ :=
  ((t.eventsOf k).map fun x => (x.2.fill?.map Fill.qty).getD 0).sum

/-- A paper order is filled at most once, by all that remained of it. -/
theorem PaperTrace.Inv.filledOf_le {t : PaperTrace ℚ} (inv : t.Inv) {k : Nat}
    {o : Order ℚ} (ho : t.accepted[k]? = some o) (hrem : o.remaining ≤ o.qty) :
    t.filledOf k ≤ o.qty := by
  have hqty := inv.qty_pos o (List.mem_of_getElem? ho)
  have hnone : t.eventsOf k = [] → t.filledOf k ≤ o.qty := by
    intro hnil
    rw [filledOf, hnil]
    exact hqty.le
  by_cases hslot : k ∈ t.slots.map Prod.fst
  · obtain ⟨s, hs, rfl⟩ := List.mem_map.1 hslot
    exact hnone (inv.waiting s hs)
  · rcases inv.closed k o ho hslot with ⟨hnil, _⟩ | ⟨e, hone, hres⟩
    · exact hnone hnil
    · rw [filledOf, hone]
      cases hres with
      | fill price ts _ => simpa [TradeEvent.fill?, Order.fillEvent] using hrem
      | cancel reason _ => simpa [TradeEvent.fill?] using hqty.le

/-- An order of another symbol, with more remaining than its quantity, is
accepted by the book and traded to the full; the paper engine does the same. -/
theorem overfilled_and_foreign :
    let maker : Order ℚ := ⟨1, ['Y'], .sell, .limit, some 10, 1, 5, 0⟩
    let taker : Order ℚ := .market 2 ['X'] .buy 5 0
    validateOrder maker = .ok () ∧
    (∃ book results, trySubmitAll 9 (OrderBook.new ['X']) [(maker, 0), (taker, 0)] =
        .ok (book, results) ∧ filledQty 1 (acceptedEvents results) = 5 ∧ maker.qty < 5 ∧
      .fill ⟨1, ['Y'], .sell, 10, 5, 0⟩ ∈ acceptedEvents results) ∧
    (PaperTrace.run 0 [.trySubmit maker, .onCandle ['Y'] (flatCandle 0 10)]).filledOf
      0 = 5 := by
  intro maker taker
  obtain ⟨⟨book, results⟩, hrun, hp⟩ := exists_ok
    (x := trySubmitAll 9 (OrderBook.new ['X']) [(maker, 0), (taker, 0)])
    (p := fun r => decide (filledQty 1 (acceptedEvents r.2) = 5 ∧
      .fill ⟨1, ['Y'], .sell, 10, 5, 0⟩ ∈ acceptedEvents r.2)) (by decide +kernel)
  obtain ⟨hfilled, hfill⟩ := of_decide_eq_true hp
  exact ⟨by decide +kernel, ⟨book, results, hrun, hfilled, by decide +kernel, hfill⟩,
    by decide +kernel⟩

/-- What validation confines.  In every run of strict submissions in which each
accepted order has no more remaining than its quantity and the symbol of the
book, no order is filled beyond its quantity and every fill is of the symbol;
the fills of submission `k` are those of number `k` in the same run with numbers
for ids.  In every paper session in which each accepted order has no more
remaining than its quantity, no order is filled beyond it. -/
theorem accepted_orders_confined (symbol : Symbol) (fuel : Nat) (initialCash : ℚ) :
    (∀ (subs : List (Order ℚ × Int)) (book : OrderBook ℚ)
        (results : List (Except (BookError ℚ) (List (TradeEvent ℚ)))),
      trySubmitAll fuel (OrderBook.new symbol) subs = .ok (book, results) →
      (∀ s ∈ subs, Proper symbol s.1) →
      (∀ f, .fill f ∈ acceptedEvents results → f.symbol = symbol) ∧
      ∃ book' results',
        trySubmitAll fuel (OrderBook.new symbol)
        (numberedFrom 0 subs) = .ok (book', results') ∧
        results = results'.map (renameResult (idOf subs)) ∧
        ∀ k s, subs[k]? = some s → validateOrder s.1 = .ok () →
          filledQty k (acceptedEvents results') ≤ s.1.qty) ∧
    ∀ ops : List (PaperOp ℚ),
      (∀ o ∈ ops.filterMap PaperOp.order?, validateOrder o = .ok () →
        o.remaining ≤ o.qty) →
      let t := PaperTrace.run initialCash ops
      t.events = t.log.map Prod.snd ∧
        ∀ k o, t.accepted[k]? = some o → t.filledOf k ≤ o.qty := by
  refine ⟨?_, ?_⟩
  · intro subs book results hrun hproper
    obtain ⟨book', results', hnum, rfl⟩ := exists_numbered hrun
    have hconf := Confined.trySubmitAll hproper subs [] rfl
      (confined_new symbol (capOf subs)) hnum
    rw [List.nil_append] at hconf
    refine ⟨?_, book', results', hnum, rfl, ?_⟩
    · intro f hf
      obtain ⟨g, hg, hsym⟩ := exists_fill_of_rename hf
      rw [hsym]
      exact hconf.fills g hg
    · intro k s hs hvalid
      have hle := hconf.filled_le (List.getElem?_eq_some_iff.1 hs).1
      rwa [capOf_eq hs hvalid] at hle
  · intro ops hproper t
    have inv : t.Inv := PaperTrace.Inv.run initialCash ops
    refine ⟨inv.events, ?_⟩
    intro k o ho
    obtain ⟨order, hmem, hvalid, heq⟩ :=
      PaperTrace.accepted_submitted initialCash ops o (List.mem_of_getElem? ho)
    apply inv.filledOf_le ho
    rw [heq]
    exact hproper order hmem hvalid

/-- A resting bid that a market order hits, both within their quantity. -/
theorem accepted_orders_confined_bid :
    let subs : List (Order ℚ × Int) :=
      [(.limit 7 ['X'] .buy 10 2 0, 0), (.market 7 ['X'] .sell 1 0, 1)]
    ∃ book results, trySubmitAll 9 (OrderBook.new ['X']) subs = .ok (book, results) ∧
      (∀ s ∈ subs, Proper ['X'] s.1) ∧ (acceptedEvents results).length = 2 ∧
      ∀ f, .fill f ∈ acceptedEvents results → f.symbol = ['X'] := by
  intro subs
  obtain ⟨⟨book, results⟩, hrun, hp⟩ := exists_ok
    (x := trySubmitAll 9 (OrderBook.new ['X']) subs)
    (p := fun r => decide ((acceptedEvents r.2).length = 2)) (by decide +kernel)
  have hproper : ∀ s ∈ subs, Proper ['X'] s.1 := by
    intro s hs _
    simp only [subs, List.mem_cons, List.not_mem_nil, or_false] at hs
    rcases hs with rfl | rfl
    · exact ⟨le_rfl, rfl⟩
    · exact ⟨le_rfl, rfl⟩
  exact ⟨book, results, hrun, hproper, of_decide_eq_true hp,
    ((accepted_orders_confined ['X'] 9 0).1 subs book results hrun hproper).1⟩

end Candlestore.Matching
