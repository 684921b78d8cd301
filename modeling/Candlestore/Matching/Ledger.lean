import Mathlib.Data.List.Infix
import Candlestore.Matching.Reference

/-!
# Quantity conservation over whole runs

Every order is debited as a taker when it is submitted and as a maker by later
submissions.  The ledger of a run adds up the fills of each order: what remains
of a resting order is its quantity less its fills, an order that left the book
without a cancel is short of its quantity by dust at most, and a cancel is the
last event of its order.
-/

namespace Candlestore.Matching

open Candlestore Lib

/-! ## Adding up fills -/

/-- The quantity an event fills of order `id`. -/
def TradeEvent.filledOf (id : Nat) : TradeEvent ℚ → ℚ
  | .fill f => if f.orderId = id then f.qty else 0
  | .cancel _ _ => 0

/-- The quantity filled of order `id`. -/
def filledQty (id : Nat) (events : List (TradeEvent ℚ)) : ℚ :=
  (events.map (TradeEvent.filledOf id)).sum

@[simp] theorem filledQty_nil (id : Nat) : filledQty id [] = 0 := rfl

@[simp] theorem filledQty_append (id : Nat) (a b : List (TradeEvent ℚ)) :
    filledQty id (a ++ b) = filledQty id a + filledQty id b := by
  rw [filledQty, List.map_append, List.sum_append]
  rfl

@[simp] theorem filledQty_cancel (id k : Nat) (r : CancelReason) :
    filledQty id [.cancel k r] = 0 := by
  simp [filledQty, TradeEvent.filledOf]

theorem filledQty_fillPair (id key : Nat) (ts : Int) (taker maker : Order ℚ) :
    filledQty id (fillPair key ts taker maker) =
      (if taker.id = id then tradeQty taker maker else 0) +
        if maker.id = id then tradeQty taker maker else 0 := by
  simp [filledQty, fillPair, Order.fillEvent, TradeEvent.filledOf]

/-- An order without events has no fills. -/
theorem filledQty_eq_zero {id : Nat} {events : List (TradeEvent ℚ)}
    (h : ∀ e ∈ events, e.orderId ≠ id) : filledQty id events = 0 := by
  induction events with
  | nil => rfl
  | cons e events ih =>
      rw [← List.singleton_append, filledQty_append,
        ih fun x hx => h x (List.mem_cons_of_mem e hx),
        add_zero]
      have hne := h e List.mem_cons_self
      cases e with
      | cancel k r => exact filledQty_cancel id k r
      | fill f =>
          have hf : f.orderId ≠ id := hne
          simp [filledQty, TradeEvent.filledOf, hf]

/-- Fills in adjacent taker and maker pairs of one quantity and price and of
opposite sides; cancels anywhere between the pairs. -/
inductive PairedFills : List (TradeEvent ℚ) → Prop where
  | nil : PairedFills []
  | pair (f g : Fill ℚ) (rest : List (TradeEvent ℚ)) :
      f.qty = g.qty → f.price = g.price →
      g.side = f.side.opposite → PairedFills rest →
      PairedFills (.fill f :: .fill g :: rest)
  | cancel (id : Nat) (reason : CancelReason) (rest : List (TradeEvent ℚ)) :
      PairedFills rest →
      PairedFills (.cancel id reason :: rest)

theorem PairedFills.append {a b : List (TradeEvent ℚ)} (ha : PairedFills a)
    (hb : PairedFills b) : PairedFills (a ++ b) := by
  induction ha with
  | nil => exact hb
  | pair f g rest hq hp hs _ ih => exact .pair f g _ hq hp hs ih
  | cancel id reason rest _ ih => exact .cancel id reason _ ih

/-! ## What a pass does to the ledger -/

section Pass

variable (ts : Int)

/-- The events of a pass are fills of the taker and of makers it met, for a
non-negative quantity. -/
theorem mem_priorityPass_events (q : List (Nat × Order ℚ)) (taker : Order ℚ)
    (ht : 0 ≤ taker.remaining) (hq : ∀ e ∈ q, 0 ≤ e.2.remaining) :
    ∀ e ∈ (priorityPass ts taker q).events, ∃ f, e = .fill f ∧ 0 ≤ f.qty ∧
      (f.orderId = taker.id ∨ f.orderId ∈ q.map fun e => e.2.id) := by
  -- the two fills of one trade
  have hpair : ∀ {taker maker : Order ℚ} {key : Nat} {rest : List (Nat × Order ℚ)},
      0 ≤ taker.remaining → 0 ≤ maker.remaining →
      ∀ e ∈ fillPair key ts taker maker, ∃ f, e = .fill f ∧ 0 ≤ f.qty ∧
        (f.orderId = taker.id ∨
          f.orderId ∈ ((key, maker) :: rest).map fun e => e.2.id) := by
    intro taker maker key rest ht hm e he
    have hnonneg : 0 ≤ tradeQty taker maker := le_min ht hm
    rcases List.mem_cons.1 he with rfl | he
    · exact ⟨_, rfl, hnonneg, Or.inl rfl⟩
    · rw [List.mem_singleton] at he
      subst he
      exact ⟨_, rfl, hnonneg, Or.inr List.mem_cons_self⟩
  have hpass := pass_priorityPass ts taker q
  generalize priorityPass ts taker q = m at hpass ⊢
  induction hpass with
  | stop _ => exact fun e he => absurd he List.not_mem_nil
  | @last taker key maker rest _ _ => exact hpair ht (hq (key, maker) List.mem_cons_self)
  | @used taker key maker rest m _ _ _ ih =>
      intro e he
      rcases List.mem_append.1 he with he | he
      · exact hpair ht (hq (key, maker) List.mem_cons_self) e he
      · obtain ⟨f, rfl, hfq, hid⟩ := ih (debit_tradeQty_nonneg taker maker)
          (fun e he => hq e (List.mem_cons_of_mem _ he)) e he
        exact ⟨f, rfl, hfq, hid.imp_right (List.mem_cons_of_mem _)⟩

theorem priorityPass_paired (q : List (Nat × Order ℚ)) (taker : Order ℚ)
    (hq : ∀ e ∈ q, e.2.side = taker.side.opposite) :
    PairedFills (priorityPass ts taker q).events := by
  have hpass := pass_priorityPass ts taker q
  generalize priorityPass ts taker q = m at hpass ⊢
  induction hpass with
  | stop _ => exact .nil
  | last _ _ => exact .pair _ _ _ rfl rfl (hq _ List.mem_cons_self) .nil
  | used _ _ _ ih =>
      exact .pair _ _ _ rfl rfl (hq _ List.mem_cons_self)
        (ih fun e he => hq e (List.mem_cons_of_mem _ he))

/-- Whoever is neither the taker nor a maker gets no fill. -/
theorem filledQty_priorityPass_eq_zero {q : List (Nat × Order ℚ)} {taker : Order ℚ}
    (ht : 0 ≤ taker.remaining) (hq : ∀ e ∈ q, 0 ≤ e.2.remaining) {id : Nat}
    (hid : id ≠ taker.id) (hidq : id ∉ q.map fun e => e.2.id) :
    filledQty id (priorityPass ts taker q).events = 0 := by
  refine filledQty_eq_zero fun e he => ?_
  obtain ⟨f, rfl, _, hf⟩ := mem_priorityPass_events ts q taker ht hq e he
  rintro rfl
  rcases hf with hf | hf
  · exact hid hf
  · exact hidq hf

theorem orderId_of_mem_priorityPass {q : List (Nat × Order ℚ)} {taker : Order ℚ}
    (ht : 0 ≤ taker.remaining) (hq : ∀ e ∈ q, 0 ≤ e.2.remaining) {x : TradeEvent ℚ}
    (hx : x ∈ (priorityPass ts taker q).events) :
    x.orderId = taker.id ∨ ∃ e ∈ q, e.2.id = x.orderId := by
  obtain ⟨f, rfl, _, hf⟩ := mem_priorityPass_events ts q taker ht hq x hx
  exact hf.imp_right List.mem_map.1

theorem cancel_not_mem_priorityPass {q : List (Nat × Order ℚ)} {taker : Order ℚ}
    (ht : 0 ≤ taker.remaining) (hq : ∀ e ∈ q, 0 ≤ e.2.remaining) (id : Nat)
    (r : CancelReason) : .cancel id r ∉ (priorityPass ts taker q).events := by
  intro hx
  obtain ⟨f, hf, _⟩ := mem_priorityPass_events ts q taker ht hq _ hx
  cases hf

/-- The fills of the taker are what it lost. -/
theorem filledQty_taker (q : List (Nat × Order ℚ)) (taker : Order ℚ)
    (hid : taker.id ∉ q.map fun e => e.2.id) :
    filledQty taker.id (priorityPass ts taker q).events =
      taker.remaining - (priorityPass ts taker q).taker.remaining := by
  have hpair : ∀ {taker maker : Order ℚ} {key : Nat}, taker.id ≠ maker.id →
      filledQty taker.id (fillPair key ts taker maker) = tradeQty taker maker := by
    intro taker maker key hne
    rw [filledQty_fillPair, if_pos rfl, if_neg hne.symm, add_zero]
  have hpass := pass_priorityPass ts taker q
  generalize priorityPass ts taker q = m at hpass ⊢
  induction hpass with
  | stop _ => exact (sub_self _).symm
  | last _ _ =>
      rw [List.map_cons, List.mem_cons, not_or] at hid
      refine (hpair hid.1).trans ?_
      rw [Order.debit_remaining]
      exact (sub_sub_cancel _ _).symm
  | @used taker key maker rest m _ _ _ ih =>
      rw [List.map_cons, List.mem_cons, not_or] at hid
      have hrec := ih hid.2
      rw [Order.debit_id, Order.debit_remaining] at hrec
      simp only [filledQty_append, hpair hid.1, hrec]
      change tradeQty taker maker + (taker.remaining - tradeQty taker maker - _) = _
      ring

/-- A trade does not fill the makers further back. -/
theorem filledQty_fillPair_rest (key : Nat) {taker maker : Order ℚ}
    {rest : List (Nat × Order ℚ)} (ht : taker.id ∉ rest.map fun e => e.2.id)
    (hm : maker.id ∉ rest.map fun e => e.2.id) :
    ∀ k o, (k, o) ∈ rest → filledQty o.id (fillPair key ts taker maker) = 0 := by
  intro k o ho
  have hmem : o.id ∈ rest.map fun e => e.2.id :=
    List.mem_map_of_mem (f := fun e => e.2.id) ho
  have htaker : taker.id ≠ o.id := fun heq => ht (heq ▸ hmem)
  have hmaker : maker.id ≠ o.id := fun heq => hm (heq ▸ hmem)
  rw [filledQty_fillPair, if_neg htaker, if_neg hmaker, add_zero]

/-- A pass leaves makers in place or takes them out. -/
theorem priorityPass_left_ids (q : List (Nat × Order ℚ)) (taker : Order ℚ) :
    ((priorityPass ts taker q).left.map fun e => e.2.id).Sublist
      (q.map fun e => e.2.id) := by
  have hpass := pass_priorityPass ts taker q
  generalize priorityPass ts taker q = m at hpass ⊢
  induction hpass with
  | stop _ => exact List.Sublist.refl _
  | last _ _ => exact List.Sublist.refl _
  | used _ _ _ ih => exact ih.trans (List.sublist_cons_self _ _)

/-- `o'` is what the fills in `events` leave of `o`. -/
def LeftOf (events : List (TradeEvent ℚ)) (o o' : Order ℚ) : Prop :=
  o'.original = o.original ∧ o'.remaining = o.remaining - filledQty o.id events

/-- Everything a pass leaves is left of a maker it met. -/
theorem mem_priorityPass_left (q : List (Nat × Order ℚ)) (taker : Order ℚ)
    (ht : 0 ≤ taker.remaining) (hq : ∀ e ∈ q, 0 ≤ e.2.remaining)
    (hnodup : (q.map fun e => e.2.id).Nodup) (hid : taker.id ∉ q.map fun e => e.2.id) :
    ∀ key o', (key, o') ∈ (priorityPass ts taker q).left →
      ∃ o, (key, o) ∈ q ∧ LeftOf (priorityPass ts taker q).events o o' := by
  have hpass := pass_priorityPass ts taker q
  generalize priorityPass ts taker q = m at hpass ⊢
  induction hpass with
  | stop _ => exact fun k o' ho' => ⟨o', ho', rfl, (sub_zero _).symm⟩
  | @last taker key maker rest _ _ =>
      rw [List.map_cons, List.mem_cons, not_or] at hid
      rw [List.map_cons, List.nodup_cons] at hnodup
      intro k o' ho'
      rcases List.mem_cons.1 ho' with heq | ho'
      · cases heq
        refine ⟨maker, List.mem_cons_self, rfl, ?_⟩
        rw [filledQty_fillPair, if_neg hid.1, if_pos rfl, zero_add]
        rfl
      · refine ⟨o', List.mem_cons_of_mem _ ho', rfl, ?_⟩
        rw [filledQty_fillPair_rest ts key hid.2 hnodup.1 k o' ho', sub_zero]
  | @used taker key maker rest m _ _ _ ih =>
      rw [List.map_cons, List.mem_cons, not_or] at hid
      rw [List.map_cons, List.nodup_cons] at hnodup
      intro k o' ho'
      obtain ⟨o, ho, horig, hrem⟩ := ih (debit_tradeQty_nonneg taker maker)
        (fun e he => hq e (List.mem_cons_of_mem _ he)) hnodup.2 hid.2 k o' ho'
      refine ⟨o, List.mem_cons_of_mem _ ho, horig, ?_⟩
      rw [filledQty_append, filledQty_fillPair_rest ts key hid.2 hnodup.1 k o ho,
        zero_add]
      exact hrem

/-- A maker is not overfilled, and it either stays with what its fills left or
is gone with dust. -/
theorem priorityPass_maker (q : List (Nat × Order ℚ)) (taker : Order ℚ)
    (ht : 0 ≤ taker.remaining) (hq : ∀ e ∈ q, 0 ≤ e.2.remaining)
    (hnodup : (q.map fun e => e.2.id).Nodup) (hid : taker.id ∉ q.map fun e => e.2.id) :
    ∀ key o, (key, o) ∈ q →
      filledQty o.id (priorityPass ts taker q).events ≤ o.remaining ∧
      ((∃ o', (key, o') ∈ (priorityPass ts taker q).left ∧
          LeftOf (priorityPass ts taker q).events o o') ∨
        o.remaining - filledQty o.id (priorityPass ts taker q).events ≤
          o.qty * (1 / 1000000000)) := by
  induction q generalizing taker with
  | nil => exact fun key o h => absurd h List.not_mem_nil
  | cons x rest ih =>
      obtain ⟨key, maker⟩ := x
      rw [List.map_cons, List.mem_cons, not_or] at hid
      rw [List.map_cons, List.nodup_cons] at hnodup
      have hrest : ∀ e ∈ rest, 0 ≤ e.2.remaining :=
        fun e he => hq e (List.mem_cons_of_mem _ he)
      have hother := filledQty_fillPair_rest ts key hid.2 hnodup.1
      have hself : filledQty maker.id (fillPair key ts taker maker) =
          tradeQty taker maker := by
        rw [filledQty_fillPair, if_neg hid.1, if_pos rfl, zero_add]
      intro k o ho
      cases hf : taker.isFilled with
      | true =>
          rw [priorityPass_filled ts hf]
          exact ⟨hq (k, o) ho, Or.inl ⟨o, ho, rfl, (sub_zero _).symm⟩⟩
      | false =>
          cases hm : (maker.debit (tradeQty taker maker)).isFilled with
          | false =>
              rw [priorityPass_last ts hf hm]
              rcases List.mem_cons.1 ho with heq | ho
              · cases heq
                refine ⟨?_, Or.inl ⟨_, List.mem_cons_self, rfl, ?_⟩⟩
                · rw [hself]
                  exact tradeQty_le_maker taker maker
                · rw [hself]
                  rfl
              · refine ⟨?_, Or.inl ⟨o, List.mem_cons_of_mem _ ho, rfl, ?_⟩⟩
                · rw [hother k o ho]
                  exact hrest (k, o) ho
                · rw [hother k o ho, sub_zero]
          | true =>
              rw [priorityPass_used ts hf hm]
              rcases List.mem_cons.1 ho with heq | ho
              · cases heq
                have hnone : filledQty maker.id
                    (priorityPass ts (taker.debit (tradeQty taker maker)) rest).events =
                      0 := by
                  exact filledQty_priorityPass_eq_zero ts
                    (debit_tradeQty_nonneg taker maker) hrest (Ne.symm hid.1) hnodup.1
                simp only [filledQty_append, hself, hnone, add_zero]
                refine ⟨tradeQty_le_maker taker maker, Or.inr ?_⟩
                exact (isFilled_iff _).1 hm
              · have hrec := ih (taker.debit (tradeQty taker maker))
                  (debit_tradeQty_nonneg taker maker) hrest hnodup.2 hid.2 k o ho
                simp only [LeftOf, filledQty_append, hother k o ho, zero_add]
                exact hrec

end Pass

/-! ## The ledger of a run -/

/-- The orders resting where a taker of side `side` meets them. -/
def restingQueue (book : OrderBook ℚ) (side : Side) : List (Nat × Order ℚ) :=
  queueOf (ladder side (book.makers side))

/-- All resting orders, with their keys. -/
def restingOrders (book : OrderBook ℚ) : List (Nat × Order ℚ) :=
  restingQueue book .buy ++ restingQueue book .sell

theorem restingOrders_perm (book : OrderBook ℚ) (side : Side) :
    (restingOrders book).Perm
      (restingQueue book side ++ restingQueue book side.opposite) := by
  cases side with
  | buy => exact List.Perm.refl _
  | sell => exact List.perm_append_comm

/-- The ledger balances.  `known` are the ids that may have events. -/
structure LedgerInv (history : List (Order ℚ)) (known : List Nat)
    (resting : List (Nat × Order ℚ)) (events : List (TradeEvent ℚ)) : Prop where
  nodup : (resting.map fun e => e.2.id).Nodup
  original_mem : ∀ e ∈ resting, e.2.original ∈ history
  left_of : ∀ e ∈ resting, LeftOf events e.2.original e.2
  not_cancelled : ∀ e ∈ resting, ∀ r, .cancel e.2.id r ∉ events
  filled_le : ∀ o ∈ history, filledQty o.id events ≤ o.qty
  settled : ∀ o ∈ history, (∀ e ∈ resting, e.2.id ≠ o.id) →
    (∀ r, .cancel o.id r ∉ events) →
    o.qty - filledQty o.id events ≤ o.qty * (1 / 1000000000)
  known_ids : ∀ x ∈ events, x.orderId ∈ known
  nonneg : ∀ f, .fill f ∈ events → 0 ≤ f.qty
  paired : PairedFills events
  cancel_last : events.Pairwise fun a b => a.isFill = false → b.orderId ≠ a.orderId

theorem LedgerInv.perm {history : List (Order ℚ)} {known : List Nat}
    {resting resting' : List (Nat × Order ℚ)} {events : List (TradeEvent ℚ)}
    (inv : LedgerInv history known resting events) (h : resting'.Perm resting) :
    LedgerInv history known resting' events where
  nodup := (h.map _).nodup_iff.2 inv.nodup
  original_mem := fun e he => inv.original_mem e (h.mem_iff.1 he)
  left_of := fun e he => inv.left_of e (h.mem_iff.1 he)
  not_cancelled := fun e he => inv.not_cancelled e (h.mem_iff.1 he)
  filled_le := inv.filled_le
  settled := fun o ho hnone => inv.settled o ho fun e he => hnone e (h.mem_iff.2 he)
  known_ids := inv.known_ids
  nonneg := inv.nonneg
  paired := inv.paired
  cancel_last := inv.cancel_last

theorem ledgerInv_nil : LedgerInv [] [] [] [] where
  nodup := List.nodup_nil
  original_mem := fun _ he => absurd he List.not_mem_nil
  left_of := fun _ he => absurd he List.not_mem_nil
  not_cancelled := fun _ he => absurd he List.not_mem_nil
  filled_le := fun _ ho => absurd ho List.not_mem_nil
  settled := fun _ ho => absurd ho List.not_mem_nil
  known_ids := fun _ hx => absurd hx List.not_mem_nil
  nonneg := fun _ hf => absurd hf List.not_mem_nil
  paired := .nil
  cancel_last := List.Pairwise.nil

section Step

variable {history : List (Order ℚ)} {q others : List (Nat × Order ℚ)}
  {past : List (TradeEvent ℚ)} {order : Order ℚ}

section Match

variable (inv : LedgerInv history (history.map Order.id) (q ++ others) past)
include inv

theorem LedgerInv.id_mem {e : Nat × Order ℚ} (he : e ∈ q ++ others) :
    e.2.id ∈ history.map Order.id :=
  List.mem_map.2 ⟨e.2.original, inv.original_mem e he, rfl⟩

/-- An older order that meets the taker is the one of its id on the queue. -/
theorem LedgerInv.exists_maker (hids : (history.map Order.id).Nodup) {o : Order ℚ}
    (ho : o ∈ history) (hoq : o.id ∈ q.map fun e => e.2.id) :
    ∃ k r, (k, r) ∈ q ∧ r.id = o.id ∧ r.qty = o.qty ∧
      r.remaining = o.qty - filledQty o.id past := by
  obtain ⟨⟨k, r⟩, hr, hrid⟩ := List.mem_map.1 hoq
  have hmem := List.mem_append_left others hr
  have horig := List.inj_on_of_nodup_map hids (inv.original_mem _ hmem) ho hrid
  have hqty : r.qty = o.qty := (congrArg Order.qty horig :)
  have hleft : r.remaining = r.qty - filledQty r.id past := (inv.left_of _ hmem).2
  refine ⟨k, r, hr, hrid, hqty, ?_⟩
  rw [hleft, hqty, show r.id = o.id from hrid]

variable (hfresh : order.id ∉ history.map Order.id)
include hfresh

theorem LedgerInv.taker_not_mem : order.id ∉ q.map fun e => e.2.id := by
  intro h
  obtain ⟨e, he, heq⟩ := List.mem_map.1 h
  exact hfresh (heq ▸ inv.id_mem (List.mem_append_left _ he))

variable (hrem : 0 ≤ order.remaining) (hq : ∀ e ∈ q, 0 ≤ e.2.remaining) (ts : Int)
include hrem hq

/-- The makers of the other side get no fill. -/
theorem LedgerInv.filledQty_others {e : Nat × Order ℚ} (he : e ∈ others) :
    filledQty e.2.id (priorityPass ts order q).events = 0 := by
  have hnodup := inv.nodup
  rw [List.map_append] at hnodup
  have hdisj := (List.nodup_append.1 hnodup).2.2
  refine filledQty_priorityPass_eq_zero ts hrem hq ?_ ?_
  · intro heq
    exact hfresh (heq ▸ inv.id_mem (List.mem_append_right _ he))
  · intro hmem
    exact hdisj _ hmem _ (List.mem_map.2 ⟨e, he, rfl⟩) rfl

theorem LedgerInv.mem_left {e : Nat × Order ℚ}
    (he : e ∈ (priorityPass ts order q).left) :
    ∃ o, (e.1, o) ∈ q ∧ LeftOf (priorityPass ts order q).events o e.2 := by
  have hnodup := inv.nodup
  rw [List.map_append] at hnodup
  exact mem_priorityPass_left ts q order hrem hq (List.nodup_append.1 hnodup).1
    (inv.taker_not_mem hfresh) e.1 e.2 he

/-- Each order still resting is an older one, with the same original. -/
theorem LedgerInv.exists_resting {e : Nat × Order ℚ}
    (he : e ∈ (priorityPass ts order q).left ++ others) :
    ∃ o, (e.1, o) ∈ q ++ others ∧ e.2.original = o.original := by
  rcases List.mem_append.1 he with he | he
  · obtain ⟨o, ho, horig, _⟩ := inv.mem_left hfresh hrem hq ts he
    exact ⟨o, List.mem_append_left _ ho, horig⟩
  · exact ⟨e.2, List.mem_append_right _ he, rfl⟩

/-- What the pass leaves of a maker balances with its older fills. -/
theorem LedgerInv.pass_leftOf {e : Nat × Order ℚ}
    (he : e ∈ (priorityPass ts order q).left ++ others) :
    LeftOf (past ++ (priorityPass ts order q).events) e.2.original e.2 := by
  refine ⟨rfl, ?_⟩
  rw [filledQty_append]
  change e.2.remaining = e.2.qty - (filledQty e.2.id past + filledQty e.2.id _)
  rcases List.mem_append.1 he with he | he
  · obtain ⟨o, ho, horig, hleft⟩ := inv.mem_left hfresh hrem hq ts he
    have hid : e.2.id = o.id := (congrArg Order.id horig :)
    have hqty : e.2.qty = o.qty := (congrArg Order.qty horig :)
    have hbalance : o.remaining = o.qty - filledQty o.id past :=
      (inv.left_of _ (List.mem_append_left _ ho)).2
    rw [hleft, hbalance, hid, hqty]
    ring
  · rw [inv.filledQty_others hfresh hrem hq ts he, add_zero]
    exact (inv.left_of e (List.mem_append_right _ he)).2

/-- An older order is not overfilled, and when the pass takes it off the book
only dust is left of it. -/
theorem LedgerInv.pass_older (hids : (history.map Order.id).Nodup) {o : Order ℚ}
    (ho : o ∈ history) :
    filledQty o.id (past ++ (priorityPass ts order q).events) ≤ o.qty ∧
      ((∀ e ∈ (priorityPass ts order q).left ++ others, e.2.id ≠ o.id) →
        (∀ r, .cancel o.id r ∉ past) →
        o.qty - filledQty o.id (past ++ (priorityPass ts order q).events) ≤
          o.qty * (1 / 1000000000)) := by
  rw [filledQty_append]
  by_cases hoq : o.id ∈ q.map fun e => e.2.id
  · obtain ⟨k, r, hr, hid, hqty, hbalance⟩ := inv.exists_maker hids ho hoq
    have hnodup := inv.nodup
    rw [List.map_append] at hnodup
    have hmaker := priorityPass_maker ts q order hrem hq (List.nodup_append.1 hnodup).1
      (inv.taker_not_mem hfresh) k r hr
    rw [hid, hqty, hbalance] at hmaker
    refine ⟨by linarith [hmaker.1], ?_⟩
    intro hgone _
    rcases hmaker.2 with ⟨r', hr', horig, _⟩ | hdust
    · have hid' : r'.id = r.id := (congrArg Order.id horig :)
      exact absurd (hid'.trans hid) (hgone (k, r') (List.mem_append_left _ hr'))
    · linarith
  · have hne : o.id ≠ order.id := fun heq => hfresh (heq ▸ List.mem_map_of_mem ho)
    rw [filledQty_priorityPass_eq_zero ts hrem hq hne hoq, add_zero]
    refine ⟨inv.filled_le o ho, ?_⟩
    intro hgone hnoc
    refine inv.settled o ho ?_ hnoc
    intro e he
    rcases List.mem_append.1 he with he | he
    · exact fun heq => hoq (List.mem_map.2 ⟨e, he, heq⟩)
    · exact hgone e (List.mem_append_right _ he)

/-- The pass has no cancel of its own and fills nobody who was cancelled. -/
theorem LedgerInv.pass_cancel_last :
    (past ++ (priorityPass ts order q).events).Pairwise
      fun a b => a.isFill = false → b.orderId ≠ a.orderId := by
  refine List.pairwise_append.2 ⟨inv.cancel_last, ?_, ?_⟩
  · refine List.pairwise_iff_forall_sublist.2 fun {a b} hab hcan => ?_
    obtain ⟨f, rfl, _⟩ := mem_priorityPass_events ts q order hrem hq a
      (hab.subset List.mem_cons_self)
    cases hcan
  · intro a ha b hb hcan heq
    cases a with
    | fill g => cases hcan
    | cancel id r =>
        rcases orderId_of_mem_priorityPass ts hrem hq hb with hb | ⟨e, he, heb⟩
        · exact hfresh ((hb.symm.trans heq) ▸ inv.known_ids _ ha)
        · have hid : e.2.id = id := heb.trans heq
          exact inv.not_cancelled e (List.mem_append_left _ he) r (hid ▸ ha)

/-- Matching a fresh order keeps the ledger of the older ones balanced. -/
theorem LedgerInv.pass (hids : (history.map Order.id).Nodup)
    (hside : ∀ e ∈ q, e.2.side = order.side.opposite) :
    let m := priorityPass ts order q
    LedgerInv history (history.map Order.id ++ [order.id]) (m.left ++ others)
      (past ++ m.events) := by
  intro m
  have hcancel : ∀ id r, .cancel id r ∈ past ++ m.events → .cancel id r ∈ past := by
    intro id r hx
    exact (List.mem_append.1 hx).resolve_right
      (cancel_not_mem_priorityPass ts hrem hq id r)
  refine
    { nodup := ?_
      original_mem := ?_
      left_of := fun e he => inv.pass_leftOf hfresh hrem hq ts he
      not_cancelled := ?_
      filled_le := fun o ho => (inv.pass_older hfresh hrem hq ts hids ho).1
      settled := ?_
      known_ids := ?_
      nonneg := ?_
      paired := inv.paired.append (priorityPass_paired ts q order hside)
      cancel_last := inv.pass_cancel_last hfresh hrem hq ts }
  · have hnodup := inv.nodup
    rw [List.map_append] at hnodup ⊢
    exact hnodup.sublist
      ((priorityPass_left_ids ts q order).append (List.Sublist.refl _))
  · intro e he
    obtain ⟨o, ho, horig⟩ := inv.exists_resting hfresh hrem hq ts he
    rw [horig]
    exact inv.original_mem _ ho
  · intro e he r hx
    obtain ⟨o, ho, horig⟩ := inv.exists_resting hfresh hrem hq ts he
    have hid : e.2.id = o.id := (congrArg Order.id horig :)
    exact inv.not_cancelled _ ho r (hid ▸ hcancel _ r hx)
  · intro o ho hgone hnoc
    exact (inv.pass_older hfresh hrem hq ts hids ho).2 hgone
      fun r hx => hnoc r (List.mem_append_left _ hx)
  · intro x hx
    rcases List.mem_append.1 hx with hx | hx
    · exact List.mem_append_left _ (inv.known_ids x hx)
    · rcases orderId_of_mem_priorityPass ts hrem hq hx with hx | ⟨e, he, hx⟩
      · exact List.mem_append_right _ (List.mem_singleton.2 hx)
      · exact List.mem_append_left _ (hx ▸ inv.id_mem (List.mem_append_left _ he))
  · intro f hf
    rcases List.mem_append.1 hf with hf | hf
    · exact inv.nonneg f hf
    · obtain ⟨g, hg, hnonneg, _⟩ := mem_priorityPass_events ts q order hrem hq _ hf
      cases hg
      exact hnonneg

end Match

section Settle

variable {resting : List (Nat × Order ℚ)} {events : List (TradeEvent ℚ)}
  (inv : LedgerInv history (history.map Order.id ++ [order.id]) resting events)
include inv

/-- The matched order joins the history, filled up to dust. -/
theorem LedgerInv.joinFilled (hle : filledQty order.id events ≤ order.qty)
    (hdust : order.qty - filledQty order.id events ≤ order.qty * (1 / 1000000000)) :
    LedgerInv (history ++ [order])
    ((history ++ [order]).map Order.id) resting events where
  nodup := inv.nodup
  original_mem := fun e he => List.mem_append_left _ (inv.original_mem e he)
  left_of := inv.left_of
  not_cancelled := inv.not_cancelled
  filled_le := by
    intro o ho
    rcases List.mem_append.1 ho with ho | ho
    · exact inv.filled_le o ho
    · rw [List.mem_singleton] at ho
      exact ho ▸ hle
  settled := by
    intro o ho hnone hnoc
    rcases List.mem_append.1 ho with ho | ho
    · exact inv.settled o ho hnone hnoc
    · rw [List.mem_singleton] at ho
      exact ho ▸ hdust
  known_ids := by
    rw [List.map_append]
    exact inv.known_ids
  nonneg := inv.nonneg
  paired := inv.paired
  cancel_last := inv.cancel_last

/-- The matched order joins the history with its remainder cancelled. -/
theorem LedgerInv.joinCancelled (hfresh : order.id ∉ history.map Order.id)
    (reason : CancelReason) (hle : filledQty order.id events ≤ order.qty)
    (hnoc : ∀ r, .cancel order.id r ∉ events) :
    LedgerInv (history ++ [order]) ((history ++ [order]).map Order.id) resting
      (events ++ [.cancel order.id reason]) where
  nodup := inv.nodup
  original_mem := fun e he => List.mem_append_left _ (inv.original_mem e he)
  left_of := by
    intro e he
    refine ⟨rfl, ?_⟩
    rw [filledQty_append, filledQty_cancel, add_zero]
    exact (inv.left_of e he).2
  not_cancelled := by
    intro e he r hx
    rcases List.mem_append.1 hx with hx | hx
    · exact inv.not_cancelled e he r hx
    · rw [List.mem_singleton] at hx
      have hid : e.2.id = order.id := (TradeEvent.cancel.inj hx).1
      exact hfresh (hid ▸ List.mem_map.2 ⟨e.2.original, inv.original_mem e he, rfl⟩)
  filled_le := by
    intro o ho
    rw [filledQty_append, filledQty_cancel, add_zero]
    rcases List.mem_append.1 ho with ho | ho
    · exact inv.filled_le o ho
    · rw [List.mem_singleton] at ho
      exact ho ▸ hle
  settled := by
    intro o ho hnone hno
    rw [filledQty_append, filledQty_cancel, add_zero]
    rcases List.mem_append.1 ho with ho | ho
    · exact inv.settled o ho hnone fun r hx => hno r (List.mem_append_left _ hx)
    · rw [List.mem_singleton] at ho
      subst ho
      exact absurd (List.mem_append_right events (List.mem_singleton_self _))
        (hno reason)
  known_ids := by
    intro x hx
    rw [List.map_append, List.map_singleton]
    rcases List.mem_append.1 hx with hx | hx
    · exact inv.known_ids x hx
    · rw [List.mem_singleton] at hx
      subst hx
      exact List.mem_append_right _ (List.mem_singleton_self _)
  nonneg := by
    intro f hf
    rcases List.mem_append.1 hf with hf | hf
    · exact inv.nonneg f hf
    · exact absurd (List.mem_singleton.1 hf) (by simp)
  paired := inv.paired.append (.cancel _ _ _ .nil)
  cancel_last := by
    refine List.pairwise_append.2 ⟨inv.cancel_last, List.pairwise_singleton _ _, ?_⟩
    intro a ha b hb hcan heq
    rw [List.mem_singleton] at hb
    subst hb
    cases a with
    | fill f => exact absurd hcan (by simp [TradeEvent.isFill])
    | cancel id r =>
        have hid : order.id = id := heq
        exact hnoc r (hid ▸ ha)

/-- The matched order joins the history and rests with what is left of it. -/
theorem LedgerInv.joinResting (hfresh : order.id ∉ history.map Order.id) {key : Nat}
    {taker : Order ℚ} (horig : taker.original = order)
    (hrem : taker.remaining = order.qty - filledQty order.id events)
    (hpos : 0 ≤ taker.remaining) (hnoc : ∀ r, .cancel order.id r ∉ events) :
    LedgerInv (history ++ [order]) ((history ++ [order]).map Order.id)
    ((key, taker) :: resting)
      events := by
  have hid : taker.id = order.id := (congrArg Order.id horig :)
  have hqty : taker.qty = order.qty := (congrArg Order.qty horig :)
  refine
    { nodup := ?_
      original_mem := ?_
      left_of := ?_
      not_cancelled := ?_
      filled_le := ?_
      settled := ?_
      known_ids := by rw [List.map_append]; exact inv.known_ids
      nonneg := inv.nonneg
      paired := inv.paired
      cancel_last := inv.cancel_last }
  · rw [List.map_cons, List.nodup_cons]
    refine ⟨?_, inv.nodup⟩
    intro h
    obtain ⟨e, he, heq⟩ := List.mem_map.1 h
    have heid : e.2.id = order.id := heq.trans hid
    exact hfresh (heid ▸ List.mem_map.2 ⟨e.2.original, inv.original_mem e he, rfl⟩)
  · intro e he
    rcases List.mem_cons.1 he with rfl | he
    · exact List.mem_append_right _ (List.mem_singleton.2 horig)
    · exact List.mem_append_left _ (inv.original_mem e he)
  · intro e he
    rcases List.mem_cons.1 he with rfl | he
    · refine ⟨rfl, ?_⟩
      change taker.remaining = taker.qty - filledQty taker.id events
      rw [hid, hqty, hrem]
    · exact inv.left_of e he
  · intro e he
    rcases List.mem_cons.1 he with rfl | he
    · simp only [hid]
      exact hnoc
    · exact inv.not_cancelled e he
  · intro o ho
    rcases List.mem_append.1 ho with ho | ho
    · exact inv.filled_le o ho
    · rw [List.mem_singleton] at ho
      subst ho
      linarith
  · intro o ho hnone hno
    rcases List.mem_append.1 ho with ho | ho
    · exact inv.settled o ho (fun e he => hnone e (List.mem_cons_of_mem _ he)) hno
    · rw [List.mem_singleton] at ho
      subst ho
      exact absurd hid (hnone _ List.mem_cons_self)

end Settle

end Step

/-! ## Submissions -/

theorem queueOf_perm {l₁ l₂ : Ladder ℚ} (h : l₁.Perm l₂) :
    (queueOf l₁).Perm (queueOf l₂) :=
  h.flatMap_right _

theorem ladder_perm (side : Side) (levels : Levels ℚ) :
    (ladder side levels).Perm levels.entries := by
  cases side with
  | buy => exact List.Perm.refl _
  | sell => exact List.reverse_perm _

/-- Pushing an order to the back of its level adds that order. -/
theorem queueOf_pushBack (side : Side) (levels : Levels ℚ) (key : Nat) (o : Order ℚ) :
    (queueOf (ladder side (pushBack levels key o))).Perm
      ((key, o) :: queueOf (ladder side levels)) := by
  have hentries : (queueOf (pushBack levels key o).entries).Perm
      ((key, o) :: queueOf levels.entries) := by
    rw [pushBack]
    cases hget : levels.get? key with
    | none => exact queueOf_perm (SortedMap.entries_insert_perm hget _)
    | some queue =>
        obtain ⟨pre, post, hsplit⟩ :=
          List.append_of_mem ((SortedMap.get?_eq_some _ _ _).1 hget)
        rw [SortedMap.entries_insert_of_split hsplit, hsplit, queueOf_append,
          queueOf_append,
          queueOf_cons, queueOf_cons, Option.getD_some, List.map_append,
          List.map_singleton]
        simp only [List.append_assoc, List.singleton_append]
        rw [← List.append_assoc, ← List.append_assoc]
        exact List.perm_middle
  exact (queueOf_perm (ladder_perm side _)).trans
    (hentries.trans ((queueOf_perm (ladder_perm side levels)).symm.cons _))

theorem restingOrders_restAt (book : OrderBook ℚ) (key : Nat) (o : Order ℚ) :
    (restingOrders (restAt book key o)).Perm ((key, o) :: restingOrders book) := by
  have hown : (restAt book key o).makers o.side = book.makers o.side := by
    rw [restAt]
    cases o.side <;> rfl
  refine (restingOrders_perm _ o.side).trans ?_
  refine List.Perm.trans ?_ ((restingOrders_perm book o.side).symm.cons _)
  rw [restingQueue, restingQueue, hown, restAt, makers_setMakers]
  exact ((queueOf_pushBack _ _ key o).append_left _).trans List.perm_middle

section Submission

variable {history : List (Order ℚ)} {book book' : OrderBook ℚ}
  {past events : List (TradeEvent ℚ)} {order : Order ℚ} {limit : Option Nat} {ts : Int}

/-- A sweep of a fresh order keeps the older orders balanced, and accounts for
what the order lost. -/
theorem LedgerInv.sweep
    (inv : LedgerInv history (history.map Order.id) (restingOrders book) past)
    (hbook : BookInv history book) (hids : (history.map Order.id).Nodup)
    (hfresh : order.id ∉ history.map Order.id) (hbuilt : order.Built)
    (hqty : 0 < order.qty) {levels : Levels ℚ}
    (hlevels : ladder order.side levels = (sweepOf book order limit ts).left) :
    let m := sweepOf book order limit ts
    LedgerInv history (history.map Order.id ++ [order.id])
        (restingOrders (book.setMakers order.side levels)) (past ++ m.events) ∧
      m.taker.remaining = order.qty - filledQty order.id (past ++ m.events) ∧
      0 ≤ m.taker.remaining ∧ ∀ r, .cancel order.id r ∉ past ++ m.events := by
  intro m
  let l := ladder order.side (book.makers order.side)
  let q := queueOf (reachable order.side limit l)
  let others := queueOf (unreachable order.side limit l) ++ restingQueue book
    order.side.opposite
  have hrem : 0 ≤ order.remaining := by rw [hbuilt.remaining_eq]; exact hqty.le
  have hresting := hbook.reachable_resting order.side limit
  have hq : ∀ e ∈ q, 0 ≤ e.2.remaining := fun e he => (hresting e he).remaining_pos.le
  obtain ⟨hevents, htaker, hleft⟩ := hbook.sweepOf_eq hqty.le limit ts
  have hbefore : (restingOrders book).Perm (q ++ others) := by
    have hqueue : restingQueue book order.side =
        q ++ queueOf (unreachable order.side limit l) := by
      rw [← queueOf_append,
        reachable_append_unreachable l (ladder_reach order.side limit _)]
      rfl
    refine (restingOrders_perm book order.side).trans ?_
    rw [hqueue, List.append_assoc]
  have hafter : (restingOrders (book.setMakers order.side levels)).Perm
      ((priorityPass ts order q).left ++ others) := by
    refine (restingOrders_perm _ order.side).trans ?_
    rw [restingQueue, restingQueue, makers_setMakers, makers_opposite_setMakers,
      hlevels, hleft, List.append_assoc]
    exact List.Perm.refl _
  have hperm := inv.perm hbefore.symm
  have hinv := hperm.pass hfresh hrem hq ts hids fun e he => (hresting e he).side_eq
  have hid := hperm.taker_not_mem hfresh
  have hpast : ∀ x ∈ past, x.orderId ≠ order.id :=
    fun x hx heq => hfresh (heq ▸ inv.known_ids x hx)
  refine ⟨?_, ?_, ?_, ?_⟩
  · change LedgerInv _ _ _ (past ++ (sweepOf book order limit ts).events)
    rw [hevents]
    exact hinv.perm hafter
  · change (sweepOf book order limit ts).taker.remaining =
      order.qty - filledQty order.id (past ++ (sweepOf book order limit ts).events)
    rw [filledQty_append, filledQty_eq_zero hpast, zero_add, hevents, htaker,
      filledQty_taker ts q order hid, hbuilt.remaining_eq]
    exact (sub_sub_cancel _ _).symm
  · change 0 ≤ (sweepOf book order limit ts).taker.remaining
    rw [htaker]
    exact (priorityPass_remaining ts q order hrem hq).1
  · intro r hx
    rcases List.mem_append.1 hx with hx | hx
    · exact hpast _ hx rfl
    · rw [show m.events = _ from hevents] at hx
      exact cancel_not_mem_priorityPass ts hrem hq _ r hx

/-- Submitting a valid order with a fresh id keeps the ledger balanced. -/
theorem LedgerInv.submitted
    (inv : LedgerInv history (history.map Order.id) (restingOrders book) past)
    (hbook : BookInv history book) (hids : (history.map Order.id).Nodup)
    (hfresh : order.id ∉ history.map Order.id) (hbuilt : order.Built)
    (hqty : 0 < order.qty) (hsub : Submitted book order limit ts book' events) :
    LedgerInv (history ++ [order]) ((history ++ [order]).map Order.id)
    (restingOrders book') (past ++ events) := by
  have horig := sweepOf_original book order limit ts
  have hq : (sweepOf book order limit ts).taker.qty = order.qty :=
    (congrArg Order.qty horig :)
  cases hsub with
  | killed _ =>
      have hpast : ∀ x ∈ past, x.orderId ≠ order.id :=
        fun x hx heq => hfresh (heq ▸ inv.known_ids x hx)
      have hknown : LedgerInv history (history.map Order.id ++ [order.id])
          (restingOrders book) past :=
        { inv with known_ids := fun x hx => List.mem_append_left _ (inv.known_ids x hx) }
      refine hknown.joinCancelled hfresh .fokNoFill ?_ fun r hx => hpast _ hx rfl
      rw [filledQty_eq_zero hpast]
      exact hqty.le
  | filled levels hlevels hfilled =>
      obtain ⟨hinv, hrem, hpos, _⟩ := inv.sweep hbook hids hfresh hbuilt hqty hlevels
      rw [isFilled_iff, hq] at hfilled
      exact hinv.joinFilled (by linarith) (by linarith)
  | cancelled levels reason hlevels _ _ =>
      obtain ⟨hinv, hrem, hpos, hnoc⟩ := inv.sweep hbook hids hfresh hbuilt hqty hlevels
      rw [← List.append_assoc]
      exact hinv.joinCancelled hfresh reason (by linarith) hnoc
  | rested levels key p hlevels _ _ _ _ _ =>
      obtain ⟨hinv, hrem, hpos, hnoc⟩ := inv.sweep hbook hids hfresh hbuilt hqty hlevels
      exact (hinv.joinResting hfresh (horig.trans hbuilt.original_eq) hrem
        hpos hnoc).perm
        (restingOrders_restAt _ key _)

end Submission

/-- The ledger balances after every run of valid orders with distinct ids. -/
theorem BookRun.ledgerInv {symbol : Symbol} {book : OrderBook ℚ}
    {history : List (Order ℚ)} {events : List (TradeEvent ℚ)}
    (hrun : BookRun symbol book history events)
    (hvalid : ∀ o ∈ history, validateOrder o = .ok ())
    (hids : (history.map Order.id).Nodup) :
    LedgerInv history (history.map Order.id) (restingOrders book) events := by
  have hstep : ∀ {history : List (Order ℚ)} {order : Order ℚ},
      (∀ o ∈ history ++ [order], validateOrder o = .ok ()) →
      ((history ++ [order]).map Order.id).Nodup →
      (∀ o ∈ history, validateOrder o = .ok ()) ∧ (history.map Order.id).Nodup ∧
        validateOrder order = .ok () ∧ order.id ∉ history.map Order.id := by
    intro history order hvalid hids
    rw [List.map_append, List.map_singleton] at hids
    obtain ⟨hnodup, _, hdisj⟩ := List.nodup_append.1 hids
    refine ⟨fun o ho => hvalid o (List.mem_append_left _ ho), hnodup,
      hvalid order (List.mem_append_right _ (List.mem_singleton_self _)), ?_⟩
    exact fun hmem => hdisj _ hmem _ (List.mem_singleton_self _) rfl
  induction hrun with
  | new => exact ledgerInv_nil
  | submit order ts fuel hprev hbuilt hcall ih =>
      obtain ⟨hold, hnodup, hok, hfresh⟩ := hstep hvalid hids
      rcases hprev.bookInv.submit_cases hbuilt hcall with ⟨e, herr, _⟩ | ⟨_, _, _, hsub⟩
      · exact absurd (hok.symm.trans herr) (by simp)
      · exact (ih hold hnodup).submitted hprev.bookInv hnodup hfresh hbuilt
          (limitKey_of_valid hok).1 hsub
  | accepted order ts fuel hprev hbuilt hcall ih =>
      obtain ⟨hold, hnodup, hok, hfresh⟩ := hstep hvalid hids
      rcases hprev.bookInv.trySubmit_cases hbuilt hcall with
        ⟨e, herr, _⟩ | ⟨_, _, events, _, hr, hsub⟩
      · exact absurd (hok.symm.trans herr) (by simp)
      · cases hr
        exact (ih hold hnodup).submitted hprev.bookInv hnodup hfresh hbuilt
          (limitKey_of_valid hok).1 hsub
  | refused order ts fuel e hprev hbuilt hcall ih =>
      obtain ⟨_, _, hok, _⟩ := hstep hvalid hids
      rcases hprev.bookInv.trySubmit_cases hbuilt hcall with
        ⟨e', herr, _⟩ | ⟨_, _, _, _, hr, _⟩
      · exact absurd (hok.symm.trans herr) (by simp)
      · exact absurd hr (by simp)

/-- Fills only add up. -/
theorem filledQty_prefix_le (id : Nat) {pre events : List (TradeEvent ℚ)}
    (hpre : pre <+: events) (hnonneg : ∀ f, .fill f ∈ events → 0 ≤ f.qty) :
    filledQty id pre ≤ filledQty id events := by
  obtain ⟨post, rfl⟩ := hpre
  have hpost : 0 ≤ filledQty id post := by
    refine List.sum_nonneg fun x hx => ?_
    obtain ⟨e, he, rfl⟩ := List.mem_map.1 hx
    cases e with
    | cancel k r => exact le_refl 0
    | fill f =>
        rw [TradeEvent.filledOf]
        split
        · exact hnonneg f (List.mem_append_right _ he)
        · exact le_refl 0
  rw [filledQty_append]
  linarith

/-- Quantity is conserved over every run of valid orders with distinct ids.
Fills come in pairs; at no time is an order filled beyond its quantity; a
resting order is a limit order with its quantity less its fills remaining; an
order that neither rests nor was cancelled is filled up to dust; and nothing
happens to an order after its cancel. -/
theorem quantity_conserved {symbol : Symbol} {book : OrderBook ℚ}
    {history : List (Order ℚ)} {events : List (TradeEvent ℚ)}
    (hrun : BookRun symbol book history events)
    (hvalid : ∀ o ∈ history, validateOrder o = .ok ())
    (hids : (history.map Order.id).Nodup) :
    PairedFills events ∧
      (∀ o ∈ history, ∀ pre, pre <+: events → 0 ≤ o.qty - filledQty o.id pre) ∧
      (∀ e ∈ restingOrders book, e.2.original ∈ history ∧ e.2.kind = .limit ∧
        e.2.remaining = e.2.qty - filledQty e.2.id events) ∧
      (∀ o ∈ history, (∀ e ∈ restingOrders book, e.2.id ≠ o.id) →
        (∀ r, .cancel o.id r ∉ events) →
        o.qty - filledQty o.id events ≤ o.qty * (1 / 1000000000)) ∧
      (∀ pre id reason post, events = pre ++ .cancel id reason :: post →
        ∀ e ∈ post, e.orderId ≠ id) := by
  have inv := hrun.ledgerInv hvalid hids
  refine ⟨inv.paired, ?_, ?_, inv.settled, ?_⟩
  · intro o ho pre hpre
    have hle := filledQty_prefix_le o.id hpre inv.nonneg
    have htotal := inv.filled_le o ho
    linarith
  · intro e he
    refine ⟨inv.original_mem e he, ?_, (inv.left_of e he).2⟩
    rcases List.mem_append.1 he with he | he
    · exact (hrun.bookInv.queue_resting .buy e he).kind_eq
    · exact (hrun.bookInv.queue_resting .sell e he).kind_eq
  · rintro pre id reason post rfl e he
    have hlast := (List.pairwise_append.1 inv.cancel_last).2.1
    exact (List.pairwise_cons.1 hlast).1 e he rfl

/-- A resting bid is filled by a market order in two fills, and an
immediate-or-cancel order loses its remainder. -/
theorem quantity_conserved_partial_fills :
    ∃ book history events, BookRun ['X'] book history events ∧
      filledQty 1 events = 3 ∧ events.getLast? = some (.cancel 3 .iocRemainder) ∧
      PairedFills events := by
  obtain ⟨book, events, hrun, hp⟩ := exists_bookRun ['X'] 9
    [Order.limit 1 ['X'] .buy 100 3 0, Order.market 2 ['X'] .sell 1 0,
      Order.ioc 3 ['X'] .sell 99 5 0]
    (by
      intro o ho
      simp only [List.mem_cons, List.not_mem_nil, or_false] at ho
      rcases ho with rfl | rfl | rfl
      · exact .limit _ _ _ _ _ _
      · exact .market _ _ _ _ _
      · exact .ioc _ _ _ _ _ _)
    (fun r => decide (filledQty 1 r.2 = 3 ∧
      r.2.getLast? = some (.cancel 3 .iocRemainder))) (by decide +kernel)
  obtain ⟨hfilled, hlast⟩ := of_decide_eq_true hp
  refine ⟨book, _, events, hrun, hfilled, hlast, ?_⟩
  refine (quantity_conserved hrun ?_ (by decide)).1
  intro o ho
  simp only [List.mem_cons, List.not_mem_nil, or_false] at ho
  rcases ho with rfl | rfl | rfl <;> decide +kernel

end Candlestore.Matching
