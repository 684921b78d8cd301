import Candlestore.Lib.Trace
import Candlestore.Lib.Wrapping
import Candlestore.Matching.Portfolio
import Candlestore.Matching.Submit

/-!
# The paper engine

`PaperEngine` simulates fills against candles.  A submitted order is validated,
given the next id and kept pending; `on_candle` fills or cancels the pending
orders of one symbol, books the fills and drops what is done.  Completion is
encoded in `remaining`: a filled or cancelled order has none left and the
`retain` pass removes it.

A run records what a caller sees, and beside it which accepted order each
pending entry and each event belongs to.  Orders are told apart by the number
of their acceptance, so nothing depends on ids being distinct: that they are is
a result, for fewer than `2 ^ 64` submissions.

## Main results

* `onOrder_cases`: a pending order is left alone or done with one event.
* `PaperTrace.Inv.run`: every accepted order is pending and untouched, or done.
-/

namespace Candlestore.Matching

open Candlestore Lib

/-- The portfolio, the orders that wait for a candle and the next id. -/
structure PaperEngine (F : Type) where
  portfolio : Portfolio F
  pending : List (Order F)
  nextId : Nat

section Model

variable {F : Type} [SignedF64 F]

/-- `limit_fill_price`: an order that the candle reaches fills at its limit, or at the
open if that is better. -/
def limitFillPrice (order : Order F) (candle : Candle F) : Option F := do
  let price ← order.price
  match order.side with
  | .buy => if candle.low ≤ price then some (min price candle.openPrice) else none
  | .sell => if price ≤ candle.high then some (max price candle.openPrice) else none

/-- `emit_fill`: the order after the fill and the event pushed. -/
def emitFill (order : Order F) (price qty : F) (ts : Int) :
    Order F × List (TradeEvent F) :=
  (order.debit qty, [order.fillEvent price qty ts])

/-- The reason an order that only takes is cancelled with. -/
def takerCancel (order : Order F) : TradeEvent F :=
  .cancel order.id (if order.kind = .fok then .fokNoFill else .iocRemainder)

/-- `order.remaining = 0.0`, which marks a cancelled order as done. -/
def Order.done (order : Order F) : Order F := { order with remaining := F64.lit 0 }

/-- The arm of immediate-or-cancel and fill-or-kill orders. -/
def fillOrCancel (candle : Candle F) (order : Order F) : Order F × List (TradeEvent F) :=
  match limitFillPrice order candle with
  | some price => emitFill order price order.remaining candle.ts
  | none => (order.done, [takerCancel order])

/-- One round of the loop over the pending orders. -/
def onOrder (symbol : Symbol) (candle : Candle F) (order : Order F) :
    Order F × List (TradeEvent F) :=
  if order.symbol ≠ symbol ∨ order.isFilled then (order, [])
  else
    match order.kind with
    | .market => emitFill order candle.openPrice order.remaining candle.ts
    | .limit =>
        match limitFillPrice order candle with
        | some price => emitFill order price order.remaining candle.ts
        | none => (order, [])
    | .ioc | .fok => fillOrCancel candle order

/-- The body of the loop that books the events of a candle. -/
def Portfolio.applyEvent (pf : Portfolio F) : TradeEvent F → Portfolio F
  | .fill f => pf.apply f
  | .cancel _ _ => pf

namespace PaperEngine

/-- `new`.  Ids start at one. -/
def new (initialCash : F) : PaperEngine F := ⟨Portfolio.new initialCash, [], 1⟩

/-- `next_id.fetch_add(1)`. -/
def takeId (e : PaperEngine F) : PaperEngine F × Nat :=
  ({ e with nextId := (e.nextId + 1) % 2 ^ 64 }, e.nextId)

/-- `enqueue`: the engine picks the id. -/
def enqueue (e : PaperEngine F) (order : Order F) : PaperEngine F × Nat :=
  let (e', id) := e.takeId
  ({ e' with pending := e'.pending ++ [{ order with id := id }] }, id)

/-- `try_submit`: an order that is not valid is not queued. -/
def trySubmit (e : PaperEngine F) (order : Order F) :
    PaperEngine F × Except (BookError F) Nat :=
  match validateOrder order with
  | .error err => (e, .error err)
  | .ok () =>
      let (e', id) := e.enqueue order
      (e', .ok id)

/-- A rejected order burns an id, so that the caller still gets a handle. -/
def submit (e : PaperEngine F) (order : Order F) : PaperEngine F × Nat :=
  match e.trySubmit order with
  | (e', .ok id) => (e', id)
  | (e', .error _) => e'.takeId

/-- `on_candle`: every pending order of the symbol meets the candle once. -/
def onCandle (e : PaperEngine F) (symbol : Symbol) (candle : Candle F) :
    PaperEngine F × List (TradeEvent F) :=
  let rounds := e.pending.map (onOrder symbol candle)
  let events := rounds.flatMap Prod.snd
  ({ e with
      portfolio := events.foldl Portfolio.applyEvent e.portfolio
      pending := (rounds.map Prod.fst).filter fun o => !o.isFilled },
    events)

/-- `pending_count`. -/
def pendingCount (e : PaperEngine F) : Nat := e.pending.length

end PaperEngine

/-- The calls of a paper trading session. -/
inductive PaperOp (F : Type) where
  | submit (order : Order F)
  | trySubmit (order : Order F)
  | onCandle (symbol : Symbol) (candle : Candle F)

/-- The order of a submission. -/
def PaperOp.order? : PaperOp F → Option (Order F)
  | .submit o | .trySubmit o => some o
  | .onCandle _ _ => none

/-- A session so far: the engine, the ids returned, the accepted orders under
their ids, the ids burnt for rejected orders and the events returned.  `slots`
and `log` say which accepted order, by its number, each pending order and each
event belongs to. -/
structure PaperTrace (F : Type) where
  engine : PaperEngine F
  issued : List Nat
  accepted : List (Order F)
  rejected : List Nat
  events : List (TradeEvent F)
  slots : List (Nat × Order F)
  log : List (Nat × TradeEvent F)

namespace PaperTrace

/-- An engine that has done nothing. -/
def new (initialCash : F) : PaperTrace F := ⟨.new initialCash, [], [], [], [], [], []⟩

/-- The order was accepted under `id` and is pending now. -/
def accept (t : PaperTrace F) (engine : PaperEngine F) (order : Order F) (id : Nat) :
    PaperTrace F :=
  { t with
    engine := engine
    issued := t.issued ++ [id]
    accepted := t.accepted ++ [{ order with id := id }]
    slots := t.slots ++ [(t.accepted.length, { order with id := id })] }

/-- One call, written into the trace. -/
def step (t : PaperTrace F) : PaperOp F → PaperTrace F
  | .trySubmit order =>
      match t.engine.trySubmit order with
      | (engine, .ok id) => t.accept engine order id
      | (engine, .error _) => { t with engine := engine }
  | .submit order =>
      let (engine, id) := t.engine.submit order
      match validateOrder order with
      | .ok () => t.accept engine order id
      | .error _ =>
          { t with
            engine := engine
            issued := t.issued ++ [id]
            rejected := t.rejected ++ [id] }
  | .onCandle symbol candle =>
      let (engine, events) := t.engine.onCandle symbol candle
      { t with
        engine := engine
        events := t.events ++ events
        slots := (t.slots.map fun s => (s.1, (onOrder symbol candle s.2).1)).filter
          fun s => !s.2.isFilled
        log := t.log ++ labelled (fun o => (onOrder symbol candle o).2) t.slots }

/-- The session after the calls `ops`. -/
def run (initialCash : F) (ops : List (PaperOp F)) : PaperTrace F :=
  ops.foldl step (new initialCash)

end PaperTrace

end Model

/-! ## One pending order -/

/-- The event that completes an order: a fill of all that remains, at a price
no worse than its limit, or a cancel of an order that only takes. -/
inductive Resolves (o : Order ℚ) : TradeEvent ℚ → Prop where
  | fill (price : ℚ) (ts : Int) :
      (o.kind ≠ .market → ∃ p, o.price = some p ∧
        match o.side with
        | .buy => price ≤ p
        | .sell => p ≤ price) →
      Resolves o (o.fillEvent price o.remaining ts)
  | cancel (reason : CancelReason) : o.kind = .ioc ∨ o.kind = .fok →
      Resolves o (.cancel o.id reason)

theorem Resolves.orderId {o : Order ℚ} {e : TradeEvent ℚ} (h : Resolves o e) :
    e.orderId = o.id := by
  cases h <;> rfl

/-- The price of a limit fill is the limit or better. -/
theorem limitFillPrice_no_worse {o : Order ℚ} {candle : Candle ℚ} {price : ℚ}
    (h : limitFillPrice o candle = some price) :
    ∃ p, o.price = some p ∧
      match o.side with
      | .buy => price ≤ p
      | .sell => p ≤ price := by
  obtain ⟨p, hp, hside⟩ := Option.bind_eq_some_iff.1 h
  refine ⟨p, hp, ?_⟩
  cases hs : o.side with
  | buy =>
      simp only [hs] at hside
      split at hside
      · obtain rfl := Option.some.inj hside
        exact min_le_left _ _
      · cases hside
  | sell =>
      simp only [hs] at hside
      split at hside
      · obtain rfl := Option.some.inj hside
        exact le_max_left _ _
      · cases hside

section Round

variable {symbol : Symbol} {candle : Candle ℚ} {o : Order ℚ}

/-- A candle leaves a pending order alone: it is of another symbol, is dust
already, or is a limit order that the candle does not reach. -/
def Untouched (symbol : Symbol) (candle : Candle ℚ) (o : Order ℚ) : Prop :=
  o.symbol ≠ symbol ∨ o.isFilled = true ∨ o.kind = .limit ∧
    limitFillPrice o candle = none

/-- A candle leaves a pending order alone or completes it with one event. -/
theorem onOrder_cases (symbol : Symbol) (candle : Candle ℚ) (hq : 0 < o.qty) :
    Untouched symbol candle o ∧ onOrder symbol candle o = (o, []) ∨
    o.symbol = symbol ∧ o.isFilled = false ∧
    ∃ o' e, onOrder symbol candle o = (o', [e]) ∧
      o'.isFilled = true ∧ Resolves o e := by
  by_cases hskip : o.symbol ≠ symbol ∨ o.isFilled = true
  · left
    exact ⟨hskip.imp_right Or.inl, if_pos hskip⟩
  · have hround : onOrder symbol candle o = _ := if_neg hskip
    rw [not_or, not_not, Bool.not_eq_true] at hskip
    have hdone : ∀ price, (o.kind ≠ .market → limitFillPrice o candle = some price) →
        onOrder symbol candle o = emitFill o price o.remaining candle.ts →
        ∃ o' e, onOrder symbol candle o = (o', [e]) ∧ o'.isFilled = true ∧
        Resolves o e := by
      intro price hprice heq
      exact ⟨_, _, heq, isFilled_debit_remaining o hq.le,
        .fill price candle.ts fun hk => limitFillPrice_no_worse (hprice hk)⟩
    have htaker : o.kind = .ioc ∨ o.kind = .fok →
        onOrder symbol candle o = fillOrCancel candle o →
        ∃ o' e, onOrder symbol candle o = (o', [e]) ∧ o'.isFilled = true ∧
        Resolves o e := by
      intro hk heq
      cases hp : limitFillPrice o candle with
      | some price => exact hdone price (fun _ => hp) (by rw [heq, fillOrCancel, hp])
      | none =>
          have hcancel : onOrder symbol candle o = (o.done, [takerCancel o]) := by
            rw [heq, fillOrCancel, hp]
          refine ⟨_, _, hcancel, ?_, .cancel _ hk⟩
          rw [isFilled_iff]
          show 0 ≤ o.qty * (1 / 1000000000)
          positivity
    cases hk : o.kind with
    | market =>
        simp only [hk] at hround
        exact Or.inr ⟨hskip.1, hskip.2, hdone _ (fun h => absurd hk h) hround⟩
    | limit =>
        simp only [hk] at hround
        cases hp : limitFillPrice o candle with
        | none =>
            simp only [hp] at hround
            exact Or.inl ⟨Or.inr (Or.inr ⟨hk, hp⟩), hround⟩
        | some price =>
            simp only [hp] at hround
            exact Or.inr ⟨hskip.1, hskip.2, hdone price (fun _ => hp) hround⟩
    | ioc =>
        simp only [hk] at hround
        exact Or.inr ⟨hskip.1, hskip.2, htaker (Or.inl hk) hround⟩
    | fok =>
        simp only [hk] at hround
        exact Or.inr ⟨hskip.1, hskip.2, htaker (Or.inr hk) hround⟩

end Round

/-! ## What a call does to the session -/

namespace PaperTrace

/-- The engine after an order is enqueued. -/
def enqueued (t : PaperTrace ℚ) (order : Order ℚ) : PaperEngine ℚ :=
  (t.engine.enqueue order).1

/-- The session after a rejected order burnt an id. -/
def burnt (t : PaperTrace ℚ) : PaperTrace ℚ :=
  { t with
    engine := t.engine.takeId.1
    issued := t.issued ++ [t.engine.nextId]
    rejected := t.rejected ++ [t.engine.nextId] }

/-- What a call does: accept an order, refuse it, refuse it and burn an id, or
process a candle. -/
theorem step_cases (t : PaperTrace ℚ) (op : PaperOp ℚ) :
    (∃ order, op.order? = some order ∧ validateOrder order = .ok () ∧
      t.step op = t.accept (t.enqueued order) order t.engine.nextId) ∨
    t.step op = t ∨
    (∃ order, op.order? = some order ∧ t.step op = t.burnt) ∨
    ∃ symbol candle, op = .onCandle symbol candle := by
  cases op with
  | onCandle symbol candle => exact Or.inr (Or.inr (Or.inr ⟨symbol, candle, rfl⟩))
  | trySubmit o =>
      cases hvalid : validateOrder o with
      | ok u =>
          refine Or.inl ⟨o, rfl, hvalid, ?_⟩
          simp only [step, PaperEngine.trySubmit, hvalid]
          rfl
      | error err =>
          refine Or.inr (Or.inl ?_)
          simp only [step, PaperEngine.trySubmit, hvalid]
  | submit o =>
      cases hvalid : validateOrder o with
      | ok u =>
          refine Or.inl ⟨o, rfl, hvalid, ?_⟩
          simp only [step, PaperEngine.submit, PaperEngine.trySubmit, hvalid]
          rfl
      | error err =>
          refine Or.inr (Or.inr (Or.inl ⟨o, rfl, ?_⟩))
          simp only [step, PaperEngine.submit, PaperEngine.trySubmit, hvalid]
          rfl

/-! ## Every accepted order is pending or done -/

/-- The events of the accepted order number `k`. -/
def eventsOf (t : PaperTrace ℚ) (k : Nat) : List (Nat × TradeEvent ℚ) :=
  t.log.filter fun x => x.1 = k

theorem eventsOf_onCandle (t : PaperTrace ℚ) (symbol : Symbol) (candle : Candle ℚ)
    (k : Nat) :
    (t.step (.onCandle symbol candle)).eventsOf k =
      t.eventsOf k ++
        (labelled (fun o => (onOrder symbol candle o).2) t.slots).filter
          fun x => x.1 = k :=
  List.filter_append _ _

/-- Pending orders are accepted orders that nothing happened to, and any other
accepted order is done with one event, or was dust when it was submitted. -/
structure Inv (t : PaperTrace ℚ) : Prop where
  pending : t.engine.pending = t.slots.map Prod.snd
  events : t.events = t.log.map Prod.snd
  labels : (t.slots.map Prod.fst).Nodup
  slot : ∀ s ∈ t.slots, t.accepted[s.1]? = some s.2
  qty_pos : ∀ o ∈ t.accepted, 0 < o.qty
  waiting : ∀ s ∈ t.slots, t.eventsOf s.1 = []
  closed : ∀ k o, t.accepted[k]? = some o → k ∉ t.slots.map Prod.fst →
    t.eventsOf k = [] ∧ o.isFilled = true ∨ ∃ e, t.eventsOf k = [(k, e)] ∧ Resolves o e
  known : ∀ x ∈ t.log, x.1 < t.accepted.length

theorem Inv.new (initialCash : ℚ) : (PaperTrace.new initialCash).Inv where
  pending := rfl
  events := rfl
  labels := List.nodup_nil
  slot := fun _ hs => absurd hs List.not_mem_nil
  qty_pos := fun _ ho => absurd ho List.not_mem_nil
  waiting := fun _ hs => absurd hs List.not_mem_nil
  closed := fun _ _ ho => by cases ho
  known := fun _ hx => absurd hx List.not_mem_nil

section Step

variable {t : PaperTrace ℚ} (inv : t.Inv)
include inv

theorem Inv.slot_lt {s : Nat × Order ℚ} (hs : s ∈ t.slots) : s.1 < t.accepted.length :=
  (List.getElem?_eq_some_iff.1 (inv.slot s hs)).1

theorem Inv.slot_qty_pos {s : Nat × Order ℚ} (hs : s ∈ t.slots) : 0 < s.2.qty :=
  inv.qty_pos s.2 (List.mem_of_getElem? (inv.slot s hs))

/-- A burnt id changes nothing of the orders. -/
theorem Inv.burnt : t.burnt.Inv where
  pending := inv.pending
  events := inv.events
  labels := inv.labels
  slot := inv.slot
  qty_pos := inv.qty_pos
  waiting := inv.waiting
  closed := inv.closed
  known := inv.known

theorem Inv.length_not_mem : t.accepted.length ∉ t.slots.map Prod.fst := by
  intro hmem
  obtain ⟨s, hs, heq⟩ := List.mem_map.1 hmem
  exact absurd (inv.slot_lt hs) (by omega)

/-- An order that is not pending after a submission is one accepted before. -/
theorem Inv.closed_accept (order : Order ℚ) {k : Nat} {o : Order ℚ}
    (ho : (t.accepted ++ [order])[k]? = some o)
    (hk : k ∉ (t.slots ++ [(t.accepted.length, order)]).map Prod.fst) :
    t.eventsOf k = [] ∧ o.isFilled = true ∨ ∃ e, t.eventsOf k = [(k, e)] ∧
      Resolves o e := by
  rw [List.map_append, List.mem_append, not_or] at hk
  have hne : k ≠ t.accepted.length := fun heq => hk.2 (List.mem_singleton.2 heq)
  have hle := (List.getElem?_eq_some_iff.1 ho).1
  rw [List.length_append, List.length_singleton] at hle
  rw [List.getElem?_append_left (by omega)] at ho
  exact inv.closed k o ho hk.1

theorem Inv.accept {order : Order ℚ} (hvalid : validateOrder order = .ok ()) :
    (t.accept (t.enqueued order) order t.engine.nextId).Inv := by
  refine
    { pending := ?_, events := inv.events, labels := ?_, slot := ?_, qty_pos := ?_
      waiting := ?_, closed := fun _ _ => inv.closed_accept _, known := ?_ }
  · show t.engine.pending ++ [_] = (t.slots ++ [_]).map Prod.snd
    rw [inv.pending, List.map_append]
    rfl
  · show ((t.slots ++ [_]).map Prod.fst).Nodup
    rw [List.map_append, List.nodup_append]
    refine ⟨inv.labels, List.nodup_singleton _, ?_⟩
    intro a ha b hb
    obtain rfl := List.mem_singleton.1 hb
    rintro rfl
    exact inv.length_not_mem ha
  · intro s hs
    show (t.accepted ++ [_])[s.1]? = some s.2
    rcases List.mem_append.1 hs with hs | hs
    · rw [List.getElem?_append_left (inv.slot_lt hs)]
      exact inv.slot s hs
    · obtain rfl := List.mem_singleton.1 hs
      exact List.getElem?_concat_length
  · intro o ho
    rcases List.mem_append.1 ho with ho | ho
    · exact inv.qty_pos o ho
    · obtain rfl := List.mem_singleton.1 ho
      exact (limitKey_of_valid hvalid).1
  · intro s hs
    rcases List.mem_append.1 hs with hs | hs
    · exact inv.waiting s hs
    · obtain rfl := List.mem_singleton.1 hs
      apply List.filter_eq_nil_iff.2
      intro x hx
      have hlt := inv.known x hx
      simp only [decide_eq_true_eq]
      omega
  · intro x hx
    show x.1 < (t.accepted ++ [_]).length
    have hlt := inv.known x hx
    rw [List.length_append]
    omega

section Candle

variable (symbol : Symbol) (candle : Candle ℚ)

/-- The pending entries after a candle are entries that it left alone. -/
theorem Inv.mem_slots_onCandle {s : Nat × Order ℚ}
    (hs : s ∈ (t.step (.onCandle symbol candle)).slots) :
    s ∈ t.slots ∧ onOrder symbol candle s.2 = (s.2, []) ∧ Untouched symbol candle s.2 ∧
      s.2.isFilled = false := by
  obtain ⟨hmem, hopen⟩ := List.mem_filter.1 hs
  obtain ⟨s₀, hs₀, rfl⟩ := List.mem_map.1 hmem
  simp only [Bool.not_eq_true'] at hopen
  rcases onOrder_cases symbol candle (inv.slot_qty_pos hs₀) with
    ⟨huntouched, heq⟩ | ⟨_, _, o', e, heq, hfilled, _⟩
  · rw [heq] at hopen ⊢
    exact ⟨hs₀, heq, huntouched, hopen⟩
  · rw [heq] at hopen
    exact absurd hfilled (by simp [hopen])

/-- What a candle makes of the order of a pending entry. -/
theorem Inv.closed_onCandle {k : Nat} {o : Order ℚ} (hs : (k, o) ∈ t.slots)
    (hgone : k ∉ (t.step (.onCandle symbol candle)).slots.map Prod.fst) :
    (t.step (.onCandle symbol candle)).eventsOf k = [] ∧ o.isFilled = true ∨
      ∃ e, (t.step (.onCandle symbol candle)).eventsOf k = [(k, e)] ∧ Resolves o e := by
  have hnew := filter_labelled (fun o => (onOrder symbol candle o).2) inv.labels hs
  have hwait : t.eventsOf k = [] := inv.waiting (k, o) hs
  rw [eventsOf_onCandle, hwait, hnew, List.nil_append]
  rcases onOrder_cases symbol candle (inv.slot_qty_pos hs) with
    ⟨_, heq⟩ | ⟨_, _, o', e, heq, _, hres⟩
  · left
    refine ⟨by rw [heq]; rfl, ?_⟩
    by_contra hopen
    apply hgone
    refine List.mem_map.2
      ⟨(k, o), List.mem_filter.2 ⟨List.mem_map.2 ⟨(k, o), hs, ?_⟩, ?_⟩, rfl⟩
    · simp only [heq]
    · simpa using hopen
  · right
    exact ⟨e, by rw [heq]; rfl, hres⟩

theorem Inv.onCandle : (t.step (.onCandle symbol candle)).Inv := by
  have hlabels : ((t.step (.onCandle symbol candle)).slots.map Prod.fst).Sublist
      (t.slots.map Prod.fst) := by
    have hsub : ((t.step (.onCandle symbol candle)).slots.map Prod.fst).Sublist
        ((t.slots.map fun s => (s.1, (onOrder symbol candle s.2).1)).map Prod.fst) :=
      List.Sublist.map Prod.fst List.filter_sublist
    rwa [List.map_map] at hsub
  refine
    { pending := ?_, events := ?_, labels := hlabels.nodup inv.labels, slot := ?_
      qty_pos := inv.qty_pos, waiting := ?_, closed := ?_, known := ?_ }
  · show ((t.engine.pending.map (onOrder symbol candle)).map Prod.fst).filter _ =
      ((t.slots.map fun s => (s.1, (onOrder symbol candle s.2).1)).filter _).map Prod.snd
    rw [inv.pending, List.map_map, List.map_map, List.filter_map, List.filter_map,
      List.map_map]
    rfl
  · show t.events ++ (t.engine.pending.map (onOrder symbol candle)).flatMap Prod.snd =
      (t.log ++ labelled _ t.slots).map Prod.snd
    rw [List.map_append, map_snd_labelled, ← inv.events, ← inv.pending, List.flatMap_map]
  · intro s hs
    exact inv.slot s (inv.mem_slots_onCandle symbol candle hs).1
  · intro s hs
    obtain ⟨hmem, heq, _⟩ := inv.mem_slots_onCandle symbol candle hs
    rw [eventsOf_onCandle, inv.waiting s hmem, filter_labelled _ inv.labels hmem, heq]
    rfl
  · intro k o ho hgone
    by_cases hk : k ∈ t.slots.map Prod.fst
    · obtain ⟨⟨k', o'⟩, hs, rfl⟩ := List.mem_map.1 hk
      have heq : some o' = some o := (inv.slot _ hs).symm.trans ho
      obtain rfl := Option.some.inj heq
      exact inv.closed_onCandle symbol candle hs hgone
    · rw [eventsOf_onCandle, filter_labelled_eq_nil _ hk, List.append_nil]
      exact inv.closed k o ho hk
  · intro x hx
    rcases List.mem_append.1 hx with hx | hx
    · exact inv.known x hx
    · obtain ⟨o, hs, _⟩ := (mem_labelled _).1 hx
      exact inv.slot_lt hs

end Candle

theorem Inv.step (op : PaperOp ℚ) : (t.step op).Inv := by
  rcases t.step_cases op with ⟨order, _, hvalid, heq⟩ | heq | ⟨_, _, heq⟩ |
    ⟨symbol, candle, rfl⟩
  · rw [heq]
    exact inv.accept hvalid
  · rw [heq]
    exact inv
  · rw [heq]
    exact inv.burnt
  · exact inv.onCandle symbol candle

end Step

theorem run_snoc (initialCash : ℚ) (ops : List (PaperOp ℚ)) (op : PaperOp ℚ) :
    run initialCash (ops ++ [op]) = (run initialCash ops).step op := by
  rw [run, List.foldl_append]
  rfl

theorem Inv.run (initialCash : ℚ) (ops : List (PaperOp ℚ)) :
    (PaperTrace.run initialCash ops).Inv := by
  induction ops using List.reverseRecOn with
  | nil => exact Inv.new initialCash
  | append_singleton ops op ih =>
      rw [run_snoc]
      exact ih.step op

/-! ## Ids -/

/-- The id of submission number `n` among those that take one. -/
def idAt (n : Nat) : Nat := (n + 1) % 2 ^ 64

/-- Ids are issued in turn, each to an accepted or to a rejected order. -/
structure IdInv (t : PaperTrace ℚ) : Prop where
  issued : t.issued = (List.range t.issued.length).map idAt
  next : t.engine.nextId = idAt t.issued.length
  perm : t.issued.Perm (t.accepted.map Order.id ++ t.rejected)

section Ids

variable {t : PaperTrace ℚ} (inv : t.IdInv)
include inv

theorem IdInv.issue : t.issued ++ [t.engine.nextId] =
    (List.range (t.issued ++ [t.engine.nextId]).length).map idAt := by
  rw [List.length_append, List.length_singleton, List.range_succ,
    List.map_append, ← inv.issued, inv.next]
  rfl

theorem IdInv.bump : (t.engine.nextId + 1) % 2 ^ 64 =
    idAt (t.issued ++ [t.engine.nextId]).length := by
  rw [inv.next, List.length_append, List.length_singleton, idAt, idAt, Nat.mod_add_mod]

theorem IdInv.step (op : PaperOp ℚ) : (t.step op).IdInv := by
  rcases t.step_cases op with ⟨order, _, _, heq⟩ | heq | ⟨_, _, heq⟩ |
    ⟨symbol, candle, rfl⟩
  · rw [heq]
    refine { issued := inv.issue, next := inv.bump, perm := ?_ }
    show (t.issued ++ [t.engine.nextId]).Perm
      ((t.accepted ++ [_]).map Order.id ++ t.rejected)
    have hswap : (t.accepted.map Order.id ++ t.rejected ++ [t.engine.nextId]).Perm
        (t.accepted.map Order.id ++ ([t.engine.nextId] ++ t.rejected)) := by
      rw [List.append_assoc]
      exact List.perm_append_comm.append_left _
    rw [List.map_append, List.append_assoc]
    exact (inv.perm.append_right _).trans hswap
  · rw [heq]
    exact inv
  · rw [heq]
    refine { issued := inv.issue, next := inv.bump, perm := ?_ }
    show (t.issued ++ [t.engine.nextId]).Perm
      (t.accepted.map Order.id ++ (t.rejected ++ [t.engine.nextId]))
    rw [← List.append_assoc]
    exact inv.perm.append_right _
  · exact ⟨inv.issued, inv.next, inv.perm⟩

/-- Fewer than `2 ^ 64` ids do not repeat. -/
theorem IdInv.nodup (hlt : t.issued.length ≤ 2 ^ 64) : t.issued.Nodup := by
  rw [inv.issued, List.nodup_map_iff_inj_on List.nodup_range]
  intro a ha b hb heq
  rw [List.mem_range] at ha hb
  rcases Nat.lt_trichotomy a b with hab | hab | hab
  · exact absurd heq (mod_ne_of_lt (by omega) (by omega))
  · exact hab
  · exact absurd heq.symm (mod_ne_of_lt (by omega) (by omega))

end Ids

theorem IdInv.run (initialCash : ℚ) (ops : List (PaperOp ℚ)) :
    (PaperTrace.run initialCash ops).IdInv := by
  induction ops using List.reverseRecOn with
  | nil => exact ⟨rfl, rfl, List.Perm.refl _⟩
  | append_singleton ops op ih =>
      rw [run_snoc]
      exact ih.step op

/-- No more ids are issued than orders submitted. -/
theorem issued_length_le (initialCash : ℚ) (ops : List (PaperOp ℚ)) :
    (run initialCash ops).issued.length ≤ (ops.filterMap PaperOp.order?).length := by
  induction ops using List.reverseRecOn with
  | nil => exact le_rfl
  | append_singleton ops op ih =>
      rw [run_snoc, List.filterMap_append, List.length_append]
      have hone : ∀ order, op.order? = some order →
          ([op].filterMap PaperOp.order?).length = 1 := by
        intro order hop
        simp [hop]
      rcases (run initialCash ops).step_cases op with
        ⟨order, hop, _, heq⟩ | heq | ⟨order, hop, heq⟩ | ⟨symbol, candle, rfl⟩
      · rw [heq, hone order hop]
        exact (List.length_append).trans_le (Nat.add_le_add_right ih 1)
      · rw [heq]
        exact ih.trans (Nat.le_add_right _ _)
      · rw [heq, hone order hop]
        exact (List.length_append).trans_le (Nat.add_le_add_right ih 1)
      · exact ih.trans (Nat.le_add_right _ _)

/-- An accepted order is a submitted one under its id. -/
theorem accepted_submitted (initialCash : ℚ) (ops : List (PaperOp ℚ)) :
    ∀ o ∈ (run initialCash ops).accepted, ∃ order ∈ ops.filterMap PaperOp.order?,
      validateOrder order = .ok () ∧ o = { order with id := o.id } := by
  induction ops using List.reverseRecOn with
  | nil => exact fun o ho => absurd ho List.not_mem_nil
  | append_singleton ops op ih =>
      intro o ho
      rw [run_snoc] at ho
      rw [List.filterMap_append]
      have hold : o ∈ (run initialCash ops).accepted → ∃ order ∈
          ops.filterMap PaperOp.order? ++ [op].filterMap PaperOp.order?,
          validateOrder order = .ok () ∧ o = { order with id := o.id } := by
        intro ho
        obtain ⟨order, hmem, h⟩ := ih o ho
        exact ⟨order, List.mem_append_left _ hmem, h⟩
      rcases (run initialCash ops).step_cases op with
        ⟨order, hop, hvalid, heq⟩ | heq | ⟨_, _, heq⟩ | ⟨symbol, candle, rfl⟩
      · rw [heq] at ho
        rcases List.mem_append.1 ho with ho | ho
        · exact hold ho
        · obtain rfl := List.mem_singleton.1 ho
          refine ⟨order, List.mem_append_right _ ?_, hvalid, rfl⟩
          simp [hop]
      · rw [heq] at ho
        exact hold ho
      · rw [heq] at ho
        exact hold ho
      · exact hold ho

/-! ## The portfolio -/

theorem foldl_applyEvent (pf : Portfolio ℚ) (events : List (TradeEvent ℚ)) :
    events.foldl Portfolio.applyEvent pf =
      pf.applyAll (events.filterMap TradeEvent.fill?) := by
  induction events generalizing pf with
  | nil => rfl
  | cons e events ih =>
      cases e with
      | fill f => exact ih (pf.apply f)
      | cancel id r => exact ih pf

/-- The portfolio is `apply` folded over the events so far. -/
theorem portfolio_run (initialCash : ℚ) (ops : List (PaperOp ℚ)) :
    (run initialCash ops).engine.portfolio =
      (run initialCash ops).events.foldl Portfolio.applyEvent
        (Portfolio.new initialCash) := by
  induction ops using List.reverseRecOn with
  | nil => rfl
  | append_singleton ops op ih =>
      rw [run_snoc]
      rcases (run initialCash ops).step_cases op with
        ⟨_, _, _, heq⟩ | heq | ⟨_, _, heq⟩ | ⟨symbol, candle, rfl⟩
      · rw [heq]
        exact ih
      · rw [heq]
        exact ih
      · rw [heq]
        exact ih
      · show List.foldl _ (run initialCash ops).engine.portfolio _ =
          List.foldl _ _ ((run initialCash ops).events ++ _)
        rw [ih, List.foldl_append]

/-! ## Orders by id -/

section ById

variable {t : PaperTrace ℚ} (inv : t.Inv)
include inv

/-- Every event resolves the accepted order it belongs to. -/
theorem Inv.mem_log {x : Nat × TradeEvent ℚ} (hx : x ∈ t.log) :
    ∃ o, t.accepted[x.1]? = some o ∧ Resolves o x.2 := by
  have hlt := inv.known x hx
  have ho : t.accepted[x.1]? = some t.accepted[x.1] := List.getElem?_eq_getElem hlt
  have hself : x ∈ t.eventsOf x.1 := List.mem_filter.2 ⟨hx, by simp⟩
  refine ⟨_, ho, ?_⟩
  by_cases hslot : x.1 ∈ t.slots.map Prod.fst
  · obtain ⟨s, hs, heq⟩ := List.mem_map.1 hslot
    rw [← heq, inv.waiting s hs] at hself
    exact absurd hself List.not_mem_nil
  · rcases inv.closed x.1 _ ho hslot with ⟨hnil, _⟩ | ⟨e, hone, hres⟩
    · rw [hnil] at hself
      exact absurd hself List.not_mem_nil
    · rw [hone, List.mem_singleton] at hself
      have heq : x.2 = e := congrArg Prod.snd hself
      rw [heq]
      exact hres

theorem Inv.mem_events {e : TradeEvent ℚ} (he : e ∈ t.events) :
    ∃ o ∈ t.accepted, Resolves o e := by
  rw [inv.events] at he
  obtain ⟨x, hx, rfl⟩ := List.mem_map.1 he
  obtain ⟨o, ho, hres⟩ := inv.mem_log hx
  exact ⟨o, List.mem_of_getElem? ho, hres⟩

variable (hids : (t.accepted.map Order.id).Nodup)
include hids

omit inv in
/-- Among accepted orders the id tells the number. -/
theorem id_eq_iff {j k : Nat} {x o : Order ℚ} (hx : t.accepted[j]? = some x)
    (ho : t.accepted[k]? = some o) : x.id = o.id ↔ j = k := by
  constructor
  · intro hid
    have hj : (t.accepted.map Order.id)[j]? = some o.id := by
      rw [List.getElem?_map, hx, Option.map_some, hid]
    have hk : (t.accepted.map Order.id)[k]? = some o.id := by
      rw [List.getElem?_map, ho, Option.map_some]
    have hlt : j < (t.accepted.map Order.id).length := (List.getElem?_eq_some_iff.1 hj).1
    exact (List.getElem?_inj hlt hids).1 (hj.trans hk.symm)
  · rintro rfl
    rw [Option.some.inj (hx.symm.trans ho)]

theorem Inv.events_with_id {k : Nat} {o : Order ℚ} (ho : t.accepted[k]? = some o) :
    t.events.filter (fun e => e.orderId = o.id) = (t.eventsOf k).map Prod.snd := by
  have hcongr : t.log.filter (fun x => decide (x.2.orderId = o.id)) = t.eventsOf k := by
    apply List.filter_congr
    intro x hx
    obtain ⟨o', ho', hres⟩ := inv.mem_log hx
    rw [hres.orderId, decide_eq_decide]
    exact id_eq_iff hids ho' ho
  rw [inv.events, List.filter_map, ← hcongr]
  rfl

theorem Inv.pending_with_id {k : Nat} {o : Order ℚ} (ho : t.accepted[k]? = some o) :
    t.engine.pending.filter (fun x => x.id = o.id) =
      if k ∈ t.slots.map Prod.fst then [o] else [] := by
  have hcongr : t.slots.filter (fun s => decide (s.2.id = o.id)) =
      t.slots.filter fun s => s.1 = k := by
    apply List.filter_congr
    intro s hs
    rw [decide_eq_decide]
    exact id_eq_iff hids (inv.slot s hs) ho
  have hpend : t.engine.pending.filter (fun x => x.id = o.id) =
      (t.slots.filter fun s => s.1 = k).map Prod.snd := by
    rw [inv.pending, List.filter_map, ← hcongr]
    rfl
  have hself : labelled (fun x : Order ℚ => [x]) t.slots = t.slots := by
    simp [labelled]
  rw [hpend]
  split
  · next hk =>
      obtain ⟨⟨k', o'⟩, hs, rfl⟩ := List.mem_map.1 hk
      obtain rfl := Option.some.inj ((inv.slot _ hs).symm.trans ho)
      have hone := filter_labelled (fun x : Order ℚ => [x]) inv.labels hs
      rw [hself] at hone
      rw [hone]
      rfl
  · next hk =>
      have hnil := filter_labelled_eq_nil (fun x : Order ℚ => [x]) hk
      rw [hself] at hnil
      rw [hnil]
      rfl

end ById

/-- The events returned for the order with the given id. -/
def eventsWith (t : PaperTrace ℚ) (id : Nat) : List (TradeEvent ℚ) :=
  t.events.filter fun e => e.orderId = id

/-- Pending and untouched, with no event. -/
def Waits (t : PaperTrace ℚ) (o : Order ℚ) : Prop :=
  t.engine.pending.filter (fun x => x.id = o.id) = [o] ∧ o.remaining = o.qty ∧
    t.eventsWith o.id = []

/-- Gone, with one event: a fill of the whole quantity or a cancel. -/
def Resolved (t : PaperTrace ℚ) (o : Order ℚ) : Prop :=
  t.engine.pending.filter (fun x => x.id = o.id) = [] ∧
    ((∃ f, t.eventsWith o.id = [.fill f] ∧ f.qty = o.qty) ∨
      ∃ r, t.eventsWith o.id = [.cancel o.id r])

/-- A filled price is no worse than the limit of the order, if it has one. -/
def NoWorse (f : Fill ℚ) (o : Order ℚ) : Prop :=
  ∀ p, o.price = some p →
    match o.side with
    | .buy => f.price ≤ p
    | .sell => p ≤ f.price

section Session

variable {t : PaperTrace ℚ} (inv : t.Inv) (hids : (t.accepted.map Order.id).Nodup)
include inv hids

/-- Every accepted order that was not dust is pending or done. -/
theorem Inv.waits_or_resolved {o : Order ℚ} (ho : o ∈ t.accepted)
    (hrem : o.remaining = o.qty) : t.Waits o ∨ t.Resolved o := by
  obtain ⟨k, hk⟩ := List.mem_iff_getElem?.1 ho
  have hevents := inv.events_with_id hids hk
  have hpending := inv.pending_with_id hids hk
  by_cases hslot : k ∈ t.slots.map Prod.fst
  · left
    obtain ⟨s, hs, heq⟩ := List.mem_map.1 hslot
    have hwait := inv.waiting s hs
    rw [heq] at hwait
    rw [if_pos hslot] at hpending
    rw [hwait] at hevents
    exact ⟨hpending, hrem, hevents⟩
  · right
    rw [if_neg hslot] at hpending
    refine ⟨hpending, ?_⟩
    rcases inv.closed k o hk hslot with ⟨_, hfilled⟩ | ⟨e, hone, hres⟩
    · have hpos := inv.qty_pos o ho
      rw [isFilled_iff, hrem] at hfilled
      exact absurd hfilled (by linarith)
    · rw [hone] at hevents
      cases hres with
      | fill price ts _ => exact Or.inl ⟨_, hevents, hrem⟩
      | cancel reason _ => exact Or.inr ⟨reason, hevents⟩

end Session

end PaperTrace

/-- A candle leaves only limit orders of its symbol pending, leaves the orders
of other symbols as they are, and its events are about orders of its symbol. -/
theorem onCandle_frame {e : PaperEngine ℚ}
    (hopen : ∀ o ∈ e.pending, 0 < o.qty ∧ o.isFilled = false) (symbol : Symbol)
    (candle : Candle ℚ) :
    let r := e.onCandle symbol candle
    (∀ o ∈ r.1.pending, o.symbol = symbol → o.kind = .limit) ∧
    r.1.pending.filter (fun o => o.symbol ≠ symbol) =
      e.pending.filter (fun o => o.symbol ≠ symbol) ∧
    ∀ x ∈ r.2, ∃ o ∈ e.pending, o.symbol = symbol ∧ x.orderId = o.id := by
  refine ⟨?_, ?_, ?_⟩
  · intro o' ho' hsym
    obtain ⟨hmem, hleft⟩ := List.mem_filter.1 ho'
    rw [List.map_map] at hmem
    obtain ⟨o, ho, rfl⟩ := List.mem_map.1 hmem
    simp only [Function.comp_apply, Bool.not_eq_true'] at hleft hsym ⊢
    rcases onOrder_cases symbol candle (hopen o ho).1 with
      ⟨hun, heq⟩ | ⟨_, _, o', x, heq, hfilled, _⟩
    · rw [heq] at hleft hsym ⊢
      rcases hun with hne | hfilled | ⟨hk, _⟩
      · exact absurd hsym hne
      · exact absurd hfilled (by simp [hleft])
      · exact hk
    · rw [heq] at hleft
      exact absurd hfilled (by simp [hleft])
  · show (((e.pending.map (onOrder symbol candle)).map Prod.fst).filter _).filter _ = _
    generalize e.pending = pending at hopen
    induction pending with
    | nil => rfl
    | cons o rest ih =>
        have hrest := ih fun x hx => hopen x (List.mem_cons_of_mem o hx)
        obtain ⟨hq, hnot⟩ := hopen o List.mem_cons_self
        rw [List.map_cons, List.map_cons, List.filter_cons]
        rcases onOrder_cases symbol candle hq with
          ⟨_, heq⟩ | ⟨hsym, _, o', x, heq, hfilled, _⟩
        · rw [heq, hnot, Bool.not_false, if_pos rfl, List.filter_cons, List.filter_cons,
            hrest]
        · rw [heq, hfilled, Bool.not_true, if_neg Bool.false_ne_true, hrest,
            List.filter_cons, if_neg (by simp [hsym])]
  · intro x hx
    obtain ⟨r, hr, hxr⟩ := List.mem_flatMap.1 hx
    obtain ⟨o, ho, rfl⟩ := List.mem_map.1 hr
    rcases onOrder_cases symbol candle (hopen o ho).1 with
      ⟨_, heq⟩ | ⟨hsym, _, o', y, heq, _, hres⟩
    · rw [heq] at hxr
      exact absurd hxr List.not_mem_nil
    · rw [heq, List.mem_singleton] at hxr
      exact ⟨o, ho, hsym, hxr ▸ hres.orderId⟩

namespace PaperTrace

theorem accepted_built (initialCash : ℚ) {ops : List (PaperOp ℚ)}
    (hbuilt : ∀ o ∈ ops.filterMap PaperOp.order?, o.Built) :
    ∀ o ∈ (run initialCash ops).accepted, o.Built := by
  intro o ho
  obtain ⟨order, hmem, _, heq⟩ := accepted_submitted initialCash ops o ho
  rw [heq]
  exact (hbuilt order hmem).withId o.id

theorem Inv.pending_open {t : PaperTrace ℚ} (inv : t.Inv)
    (hmade : ∀ o ∈ t.accepted, o.Built) {o : Order ℚ} (ho : o ∈ t.engine.pending) :
    0 < o.qty ∧ o.isFilled = false := by
  rw [inv.pending] at ho
  obtain ⟨s, hs, rfl⟩ := List.mem_map.1 ho
  have hpos := inv.slot_qty_pos hs
  refine ⟨hpos, ?_⟩
  rw [← Bool.not_eq_true, isFilled_iff,
    (hmade s.2 (List.mem_of_getElem? (inv.slot s hs))).remaining_eq]
  linarith

/-- The event of a fill was made for the one order with its id. -/
theorem Inv.fill_noWorse {t : PaperTrace ℚ} (inv : t.Inv)
    (hids : (t.accepted.map Order.id).Nodup) (hmade : ∀ o ∈ t.accepted, o.Built)
    {f : Fill ℚ} (hf : .fill f ∈ t.events) {o : Order ℚ} (ho : o ∈ t.accepted)
    (hid : o.id = f.orderId) : NoWorse f o := by
  intro p hp
  obtain ⟨o', ho', hres⟩ := inv.mem_events hf
  have hsame : o' = o := by
    apply List.inj_on_of_nodup_map hids ho' ho
    rw [hid]
    exact hres.orderId.symm
  subst hsame
  cases hres with
  | fill price ts hlimit =>
      have hkind : o'.kind ≠ .market := by
        intro hk
        rw [(hmade o' ho).price_eq_none hk] at hp
        cases hp
      obtain ⟨p', hp', hside⟩ := hlimit hkind
      obtain rfl := Option.some.inj (hp'.symm.trans hp)
      exact hside

/-- Every accepted order of a session is pending and untouched or resolved by
exactly one event; ids are distinct; a rejected order has no event; only limit
orders survive a candle of their symbol and candles of other symbols change
nothing; no fill is worse than the limit; and the portfolio is `apply` folded
over the fills. -/
theorem run_resolves_once (initialCash : ℚ) (ops : List (PaperOp ℚ))
    (hbuilt : ∀ o ∈ ops.filterMap PaperOp.order?, o.Built)
    (hcount : (ops.filterMap PaperOp.order?).length < 2 ^ 64) :
    let t := run initialCash ops
    t.issued.Nodup ∧
    (∀ o ∈ t.accepted, t.Waits o ∨ t.Resolved o) ∧
    (∀ id ∈ t.rejected, t.eventsWith id = []) ∧
    (∀ e ∈ t.events, ∃ o ∈ t.accepted, e.orderId = o.id) ∧
    (∀ symbol candle, let r := t.engine.onCandle symbol candle
      (∀ o ∈ r.1.pending, o.symbol = symbol → o.kind = .limit) ∧
      r.1.pending.filter (fun o => o.symbol ≠ symbol) =
        t.engine.pending.filter (fun o => o.symbol ≠ symbol) ∧
      ∀ x ∈ r.2, ∃ o ∈ t.engine.pending, o.symbol = symbol ∧ x.orderId = o.id) ∧
    (∀ f, .fill f ∈ t.events → ∀ o ∈ t.accepted, o.id = f.orderId → NoWorse f o) ∧
    t.engine.portfolio =
      (Portfolio.new initialCash).applyAll (t.events.filterMap TradeEvent.fill?) := by
  intro t
  have inv : t.Inv := Inv.run initialCash ops
  have idInv : t.IdInv := IdInv.run initialCash ops
  have hissued : t.issued.Nodup :=
    idInv.nodup ((issued_length_le initialCash ops).trans hcount.le)
  have hboth := idInv.perm.nodup_iff.1 hissued
  have hids : (t.accepted.map Order.id).Nodup := (List.nodup_append.1 hboth).1
  have hmade : ∀ o ∈ t.accepted, o.Built := accepted_built initialCash hbuilt
  refine ⟨hissued, ?_, ?_, ?_, ?_, ?_, ?_⟩
  · intro o ho
    exact inv.waits_or_resolved hids ho (hmade o ho).remaining_eq
  · intro id hid
    apply List.filter_eq_nil_iff.2
    intro e he
    obtain ⟨o, ho, hres⟩ := inv.mem_events he
    rw [decide_eq_true_eq, hres.orderId]
    exact (List.nodup_append.1 hboth).2.2 _ (List.mem_map_of_mem (f := Order.id) ho) _
      hid
  · intro e he
    obtain ⟨o, ho, hres⟩ := inv.mem_events he
    exact ⟨o, ho, hres.orderId⟩
  · exact fun symbol candle => onCandle_frame (fun o ho => inv.pending_open hmade ho)
      symbol candle
  · intro f hf o ho hid
    exact inv.fill_noWorse hids hmade hf ho hid
  · rw [← foldl_applyEvent]
    exact portfolio_run initialCash ops

/-- A limit buy that a candle reaches beside a rejected order and an order that
stays pending. -/
theorem run_resolves_once_example :
    let ops : List (PaperOp ℚ) :=
      [.submit (.limit 0 ['B'] .buy 50 2 0), .submit (.market 0 ['B'] .buy (-1) 0),
        .trySubmit (.limit 0 ['B'] .sell 90 1 0), .onCandle ['B'] ⟨7, 55, 60, 45, 50, 1⟩]
    let t := run 1000 ops
    t.issued = [1, 2, 3] ∧ t.issued.Nodup ∧
      t.eventsWith 1 = [.fill ⟨1, ['B'], .buy, 50, 2, 7⟩] ∧
      ∀ o ∈ t.accepted, t.Waits o ∨ t.Resolved o := by
  intro ops t
  have hall := run_resolves_once 1000 ops
    (by
      intro o ho
      simp only [ops, List.filterMap_cons, List.filterMap_nil, PaperOp.order?,
        List.mem_cons, List.not_mem_nil, or_false] at ho
      rcases ho with rfl | rfl | rfl
      · exact .limit _ _ _ _ _ _
      · exact .market _ _ _ _ _
      · exact .limit _ _ _ _ _ _)
    (by decide)
  exact ⟨by decide +kernel, hall.1, by decide +kernel, hall.2.1⟩

end PaperTrace

end Candlestore.Matching
