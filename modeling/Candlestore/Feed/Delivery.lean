import Candlestore.Feed.Handler

/-!
# From the feed handler to the store

The feed handler and the hub's ingester share a ring.  Whatever the clocks read and
however the two processes are scheduled, what arrives in the store is a first part of
what was generated, in that order; no candle is turned away as invalid and none is
counted as out of order.
-/

namespace Candlestore.Feed

open Lib Spsc

variable {c : Capacity} {F : Type}

/-- The two processes.  The ring is in both; it is one ring. -/
structure Delivery (c : Capacity) (F : Type) where
  handler : Handler c F
  pipe : Pipeline c F

/-- The steps of the two processes; `sigterm` goes to the feed handler. -/
inductive DeliveryAct where
  | feed (input : FeedInput)
  | poller
  | sigterm
  | ingester (io : SpillIo)
  /-- The hub stops its ingester. -/
  | stop

section Steps

variable [SignedF64 F] (cfg : Config) (symbol : Symbol) (interval : Nat)

/-- A step of either process, with the ring of the segment the same for both. -/
def deliveryStep (d : Delivery c F) : DeliveryAct → Option (Delivery c F)
  | .feed input => (feedStep interval d.handler input).map fun h =>
      ⟨h, { d.pipe with ring := h.ring }⟩
  | .poller => (feedPollerStep d.handler).map fun h => { d with handler := h }
  | .sigterm =>
      let ring := { d.handler.ring with cancel := true }
      some ⟨{ d.handler with ring := ring }, { d.pipe with ring := ring }⟩
  | .ingester io => (ingestStep cfg symbol d.pipe io).map fun p =>
      ⟨{ d.handler with ring := p.ring }, p⟩
  | .stop => some { d with pipe := { d.pipe with running := false } }

/-- The ring has been created and opened. -/
def Delivery.start (slots : Fin c.size → Candle F) (reader : Reader c) (clock : Nat) :
    Delivery c F where
  handler := { Handler.start slots clock with ring := .start slots (some reader) }
  pipe := .start slots reader

end Steps

/-! ## A store that is fed in order -/

/-- No candle has come out of order, and the ring remembers the last one. -/
structure InOrder (symbol : Symbol) (s : Store F) (given : List (Candle F)) : Prop where
  outOfOrder : s.outOfOrder = 0
  lastTs : ∀ e, s.map.lookup symbol = some e →
    e.buf.lastTs = given.getLast?.map Candle.ts

section Order

variable [F64 F] {cfg : Config} {symbol : Symbol} {s s' : Store F}
  {given : List (Candle F)} {x : Candle F} {io : SpillIo} {r : Except AppendError Unit}

/-- With one symbol there is nothing to evict. -/
theorem evictKey_of_fed (hfed : Fed cfg symbol s given)
    (hget : s.map.lookup symbol = none) : evictKey s.map = none := by
  cases hkey : evictKey s.map with
  | none => rfl
  | some key =>
      obtain ⟨e, he⟩ := evictKey_resident s.map key hkey
      obtain rfl := hfed.only key e he
      rw [hget] at he
      cases he

theorem InOrder.append (h : InOrder symbol s given) (hfed : Fed cfg symbol s given)
    (hvalid : x.isValid = true) (hnext : ∀ a, given.getLast? = some a → a.ts ≤ x.ts)
    (hcall : s.tryAppend cfg symbol x io = some (s', r)) :
    InOrder symbol s' (given ++ [x]) := by
  unfold Store.tryAppend at hcall
  simp only [hvalid, Bool.not_true, Bool.false_eq_true, if_false] at hcall
  cases hget : s.map.lookup symbol with
  | some e =>
      have hlast := h.lastTs e hget
      have hpush : (e.buf.push x).1 = .ok := by
        simp only [RingBuffer.push, hlast]
        cases hg : given.getLast? with
        | none => rfl
        | some a =>
            have := hnext a hg
            simp only [Option.map_some, if_neg (Int.not_lt.2 this)]
      simp only [hget, Store.pushAndPublish, hfed.live e hget, Bool.false_eq_true,
        if_false, hpush, Option.some.injEq, Prod.mk.injEq] at hcall
      obtain ⟨rfl, -⟩ := hcall
      refine ⟨h.outOfOrder, ?_⟩
      intro e' he'
      simp only [AList.lookup_insert, Option.some.injEq] at he'
      subst he'
      rw [List.getLast?_concat]
      rfl
  | none =>
      have hvictim := evictKey_of_fed hfed hget
      simp only [hget, Store.tryInsertNew, hvictim, ite_self] at hcall
      split at hcall
      · simp only [Option.some.injEq, Prod.mk.injEq] at hcall
        obtain ⟨rfl, -⟩ := hcall
        refine ⟨h.outOfOrder, ?_⟩
        intro e' he'
        simp only [Store.insertNew, AList.lookup_insert, Option.some.injEq] at he'
        subst he'
        rw [List.getLast?_concat]
        rfl
      · cases hcall

end Order

section Ingester

variable [F64 F] {cfg : Config} {symbol : Symbol} {p p' : Pipeline c F} {io : SpillIo}

/-- What a step of the ingester leaves alone, and that it changes the store only by the
append of the candle in hand. -/
theorem ingestStep_cases (hstep : ingestStep cfg symbol p io = some p') :
    (p'.ring.producer = p.ring.producer ∧
      p'.ring.channel.pushed = p.ring.channel.pushed) ∧
      ((p'.store = p.store ∧ ∀ given, p'.ring.channel.popped = given ++ p'.pc.inHand →
          p.ring.channel.popped = given ++ p.pc.inHand) ∨
        ∃ candle r, p.pc = .append candle ∧ p'.pc = .count ∧ p'.ring = p.ring ∧
          p.store.tryAppend cfg symbol candle io = some (p'.store, r)) := by
  unfold ingestStep at hstep
  cases hpc : p.pc with
  | check =>
      simp only [hpc] at hstep
      split at hstep
      · obtain ⟨ring, hring, rfl⟩ := Option.map_eq_some_iff.1 hstep
        obtain ⟨reader, rfl⟩ := step_callPop hring
        exact ⟨⟨rfl, rfl⟩, .inl ⟨rfl, fun _ h => h⟩⟩
      · cases hstep
        exact ⟨⟨rfl, rfl⟩, .inl ⟨rfl, fun _ h => h⟩⟩
  | pop =>
      simp only [hpc] at hstep
      split at hstep
      · next reader kind pc hq =>
        cases hstep
        refine ⟨popStep_frame p.ring reader kind pc, .inl ⟨rfl, fun given h => ?_⟩⟩
        rw [(popStep_move p.ring reader kind pc).popped_eq] at h
        exact (List.append_cancel_right h).trans (List.append_nil given).symm
      · cases hstep
  | append candle =>
      simp only [hpc] at hstep
      cases hcall : p.store.append cfg p.appendsRejected symbol candle io with
      | none =>
          simp only [hcall] at hstep
          cases hstep
          exact ⟨⟨rfl, rfl⟩, .inl ⟨rfl, fun _ h => h⟩⟩
      | some result =>
          simp only [hcall] at hstep
          cases hstep
          obtain ⟨r, htry⟩ := tryAppend_of_append hcall
          exact ⟨⟨rfl, rfl⟩, .inr ⟨candle, r, rfl, rfl, rfl, htry⟩⟩
  | count =>
      simp only [hpc] at hstep
      cases hstep
      exact ⟨⟨rfl, rfl⟩, .inl ⟨rfl, fun _ h => h⟩⟩
  | stopped | stuck =>
      simp only [hpc] at hstep
      cases hstep

end Ingester

/-! ## The market -/

/-- What has been generated, and that the market goes on from there. -/
structure MarketRun (h : Handler c ℚ) : Prop where
  market : MarketInv h.market
  sound : ∀ x ∈ h.generated, SoundCandle x
  chain : h.generated.IsChain Follows
  last : ∀ x, h.generated.getLast? = some x → x.close = h.market.price ∧
    x.ts = h.market.lastTs

theorem MarketRun.main {interval : Nat} {h h' : Handler c ℚ} (hrun : MarketRun h)
    (hmove : FeedMove interval h h') : MarketRun h' := by
  cases hmove with
  | generate raw now candle market hpc hgen =>
      have hnow := nowNanos_le now
      obtain ⟨hmarket, hsound⟩ := hrun.market.generate (nowNanos raw) hnow
      have hfollows : ∀ a, h.generated.getLast? = some a → Follows a candle := by
        intro a ha
        obtain ⟨hclose, hts⟩ := hrun.last a ha
        have := hrun.market.follows hclose hts (nowNanos raw) hnow
        rwa [hgen] at this
      rw [hgen] at hmarket hsound
      refine ⟨hmarket, ?_, ?_, ?_⟩
      · intro x hx
        rcases List.mem_append.1 hx with hx | hx
        · exact hrun.sound x hx
        · exact List.mem_singleton.1 hx ▸ hsound
      · rw [List.isChain_append]
        refine ⟨hrun.chain, .singleton _, ?_⟩
        intro a ha b hb
        cases hb
        exact hfollows a ha
      · intro x hx
        rw [List.getLast?_concat] at hx
        cases hx
        have hlast := generate_last h.market (nowNanos raw) (nowNanos now)
        rwa [hgen] at hlast
  | _ => exact { hrun with }

theorem SoundCandle.isValid {x : Candle ℚ} (h : SoundCandle x) : x.isValid = true := by
  have hts : 0 ≤ x.ts := h.ts_pos.le
  simp [Candle.isValid, hts, F64.isFinite]

theorem Follows.ts_le {a b : Candle ℚ} (h : Follows a b) : a.ts ≤ b.ts := by
  rcases h.ts with hlt | ⟨heq, -⟩
  · exact hlt.le
  · exact heq.ge

/-! ## Runs -/

/-- Both processes are as they are alone, and the store has taken what
it was given in order. -/
structure DeliveryInv (cfg : Config) (symbol : Symbol) (d : Delivery c ℚ) : Prop where
  handler : HandlerInv d.handler
  market : MarketRun d.handler
  pipe : IngestInv cfg symbol d.pipe
  same : d.handler.ring = d.pipe.ring
  order : ∀ given, d.pipe.ring.channel.popped = given ++ d.pipe.pc.inHand →
    InOrder symbol d.pipe.store given

section Runs

variable {cfg : Config} {symbol : Symbol} {interval : Nat} {d d' : Delivery c ℚ}

theorem DeliveryInv.start (slots : Fin c.size → Candle ℚ) (reader : Reader c)
    (clock : Nat) : DeliveryInv cfg symbol (Delivery.start slots reader clock) where
  handler := (HandlerInv.start slots clock).reread
    (Inv.start slots (some reader)) rfl rfl
  market :=
    { market := .start
      sound := fun _ h => by cases h
      chain := .nil
      last := fun _ h => by cases h }
  pipe := .start slots reader
  same := rfl
  order := by
    intro given hgiven
    have hnil : given = [] := (List.append_eq_nil_iff.1 hgiven.symm).1
    subst hnil
    exact ⟨rfl, fun e he => by simp [Delivery.start, Pipeline.start, Store.new] at he⟩

/-- What has been popped is a first part of what has been generated. -/
theorem DeliveryInv.popped_prefix (h : DeliveryInv cfg symbol d) :
    d.pipe.ring.channel.popped <+: d.handler.generated := by
  obtain ⟨dropped, hsent, -⟩ := h.handler.sent
  rw [h.same] at hsent
  rw [hsent]
  exact h.pipe.ring.channel.fifo.trans (List.prefix_append ..)

/-- The append of the candle in hand. -/
theorem DeliveryInv.append (h : DeliveryInv cfg symbol d) {given : List (Candle ℚ)}
    {candle : Candle ℚ} {s' : Store ℚ} {r : Except AppendError Unit} {io : SpillIo}
    (hpopped : d.pipe.ring.channel.popped = given ++ [candle])
    (hfed : Fed cfg symbol d.pipe.store given)
    (horder : InOrder symbol d.pipe.store given)
    (hcall : d.pipe.store.tryAppend cfg symbol candle io = some (s', r)) :
    InOrder symbol s' (given ++ [candle]) := by
  have hpre := h.popped_prefix
  rw [hpopped] at hpre
  have hsound := h.market.sound candle (hpre.subset (by simp))
  refine horder.append hfed hsound.isValid ?_ hcall
  intro a ha
  have hchain := h.market.chain.prefix hpre
  rw [List.isChain_append] at hchain
  exact (hchain.2.2 a ha candle rfl).ts_le

theorem DeliveryInv.ingest (h : DeliveryInv cfg symbol d) {io : SpillIo}
    {p : Pipeline c ℚ} (hstep : ingestStep cfg symbol d.pipe io = some p) :
    DeliveryInv cfg symbol ⟨{ d.handler with ring := p.ring }, p⟩ := by
  have hpipe := h.pipe.ingest hstep
  obtain ⟨⟨hproducer, hpushed⟩, hstore⟩ := ingestStep_cases hstep
  rw [← h.same] at hproducer hpushed
  refine ⟨h.handler.reread hpipe.ring hproducer hpushed, { h.market with },
    hpipe, rfl, ?_⟩
  intro given hgiven
  rcases hstore with ⟨hsame, hbefore⟩ | ⟨candle, r, hpc, hpc', hring, hcall⟩
  · show InOrder symbol p.store given
    rw [hsame]
    exact h.order given (hbefore given hgiven)
  · obtain ⟨given₀, hpopped, hfed, -⟩ := h.pipe.fed
    have horder := h.order given₀ hpopped
    rw [hpc] at hpopped
    dsimp only at hgiven
    rw [hpc', hring, hpopped] at hgiven
    have hgiven : given₀ ++ [candle] = given := hgiven.trans (List.append_nil given)
    rw [← hgiven]
    exact h.append hpopped hfed horder hcall

/-- What the feed handler does to the ring, the ingester's side does not see. -/
theorem IngestInv.of_feed {p : Pipeline c ℚ} (h : IngestInv cfg symbol p)
    {ring : State c (Candle ℚ)} (hring : Inv ring)
    (hconsumer : ring.consumer = p.ring.consumer)
    (hpopped : ring.channel.popped = p.ring.channel.popped) :
    IngestInv cfg symbol { p with ring := ring } where
  ring := hring
  kind := by
    dsimp only
    rw [hconsumer]
    exact h.kind
  fed := by
    dsimp only
    rw [hpopped]
    exact h.fed

theorem feedMove_ring {h h' : Handler c ℚ} (hmove : FeedMove interval h h') :
    h'.ring.consumer = h.ring.consumer ∧
      h'.ring.channel.popped = h.ring.channel.popped := by
  cases hmove with
  | push candle ring pc hpc _ _ hframe => exact hframe
  | _ => exact ⟨rfl, rfl⟩

theorem DeliveryInv.step (h : DeliveryInv cfg symbol d) {act : DeliveryAct}
    (hstep : deliveryStep cfg symbol interval d act = some d') :
    DeliveryInv cfg symbol d' := by
  have horder := h.order
  cases act with
  | feed input =>
      obtain ⟨hnd, hfeed, rfl⟩ := Option.map_eq_some_iff.1 hstep
      have hmove := feedStep_move h.handler.sync hfeed
      have hhandler := h.handler.main hmove
      obtain ⟨hconsumer, hpopped⟩ := feedMove_ring hmove
      rw [h.same] at hconsumer hpopped
      refine ⟨hhandler, h.market.main hmove,
        IngestInv.of_feed h.pipe hhandler.ring hconsumer hpopped, rfl, ?_⟩
      dsimp only
      rw [hpopped]
      exact horder
  | poller =>
      obtain ⟨hnd, hpoll, rfl⟩ := Option.map_eq_some_iff.1 hstep
      obtain ⟨hring, -, -, -, -, hgenerated, hmarket⟩ := feedPollerStep_frame hpoll
      refine ⟨h.handler.poller hpoll, ⟨?_, ?_, ?_, ?_⟩, h.pipe, hring.trans h.same,
        horder⟩
      · rw [hmarket]
        exact h.market.market
      · rw [hgenerated]
        exact h.market.sound
      · rw [hgenerated]
        exact h.market.chain
      · rw [hgenerated, hmarket]
        exact h.market.last
  | sigterm =>
      cases hstep
      have hring : Inv { d.handler.ring with cancel := true } := { h.handler.ring with }
      refine ⟨h.handler.reread hring rfl rfl, { h.market with },
        IngestInv.of_feed h.pipe hring ?_ ?_, rfl, ?_⟩
      · show d.handler.ring.consumer = d.pipe.ring.consumer
        rw [h.same]
      · show d.handler.ring.channel.popped = d.pipe.ring.channel.popped
        rw [h.same]
      · dsimp only
        rw [h.same]
        exact horder
  | ingester io =>
      obtain ⟨p, hp, rfl⟩ := Option.map_eq_some_iff.1 hstep
      exact h.ingest hp
  | stop =>
      cases hstep
      exact { h with pipe := ⟨h.pipe.ring, h.pipe.kind, h.pipe.fed⟩ }

/-- What arrives in the store is a first part of what the feed handler has generated, up
to the candle in the ingester's hand: nothing is invalid, nothing out of order, and
`last_n` returns its end.  Each candle opens where the one before closed, its extremes
enclose its prices, and its timestamp is later, unless the timestamps have run out. -/
theorem feed_delivered_in_order (cfg : Config) (symbol : Symbol) (interval : Nat)
    (slots : Fin c.size → Candle ℚ) (reader : Reader c) (clock : Nat)
    (acts : List DeliveryAct) (d : Delivery c ℚ)
    (hrun : exec (deliveryStep cfg symbol interval)
      (Delivery.start slots reader clock) acts =
      some d) :
    ∃ delivered, delivered <+: d.handler.generated ∧
      d.pipe.ring.channel.popped.length ≤ delivered.length + 1 ∧
      d.pipe.store.invalidCandles = 0 ∧ d.pipe.store.outOfOrder = 0 ∧
      d.pipe.store.version = delivered.length ∧
      (∀ n, d.pipe.store.lastN symbol n = (delivered.rtake cfg.ringCapacity).rtake n) ∧
      delivered.IsChain Follows ∧ ∀ x ∈ delivered, SoundCandle x := by
  have h : DeliveryInv cfg symbol d :=
    exec_invariant (fun _ _ _ h hstep => h.step hstep) hrun (.start slots reader clock)
  obtain ⟨given, hpopped, hfed, -⟩ := h.pipe.fed
  have hpre : given <+: d.handler.generated := by
    refine List.IsPrefix.trans ?_ h.popped_prefix
    rw [hpopped]
    exact List.prefix_append ..
  have hsound : ∀ x ∈ given, SoundCandle x :=
    fun x hx => h.market.sound x (hpre.subset hx)
  have hvalid : validOf given = given :=
    List.filter_eq_self.2 fun x hx => (hsound x hx).isValid
  have hinvalid := hfed.invalid
  rw [hvalid] at hinvalid
  refine ⟨given, hpre, ?_, by omega, (h.order given hpopped).outOfOrder, ?_, ?_,
    h.market.chain.prefix hpre, hsound⟩
  · rw [hpopped, List.length_append]
    have hone : d.pipe.pc.inHand.length ≤ 1 := by
      cases d.pipe.pc with
      | append candle | stuck candle => exact Nat.le_refl 1
      | _ => exact Nat.zero_le 1
    omega
  · rw [hfed.version, hvalid]
  · intro n
    rw [hfed.lastN, hvalid]

end Runs

/-- Two candles, the wall clock being set back between them. -/
theorem feed_delivered_in_order_set_back :
    let c : Capacity := ⟨2, by decide⟩
    let cfg : Config := ⟨1, 4, false, fun _ => false⟩
    let once (clock : Nat) : List DeliveryAct :=
      List.replicate 9 (.feed ⟨1, 0, some clock, some clock⟩) ++
        List.replicate 7 (.ingester .ok)
    ∃ d, exec (deliveryStep cfg ['A'] 1)
        (Delivery.start (c := c) (fun _ => flatCandle 0 0) ⟨2, rfl⟩ 0)
        (once 100 ++ once 40) =
          some d ∧
      d.handler.generated.map Candle.ts = [100, 101] ∧
      d.handler.market.clockSkewCorrections = 1 ∧ d.pipe.store.version = 2 ∧
      d.pipe.store.outOfOrder = 0 := by
  intro c cfg once
  obtain ⟨d, hrun, hd⟩ := exists_exec (deliveryStep cfg ['A'] 1)
    (Delivery.start (c := c) (fun _ => flatCandle 0 0) ⟨2, rfl⟩ 0) (once 100 ++ once 40)
    (fun d => d.handler.generated.map Candle.ts = [100, 101] ∧
      d.handler.market.clockSkewCorrections = 1 ∧
      d.pipe.store.version = 2) (by decide +kernel)
  obtain ⟨hts, hskew, hversion⟩ := of_decide_eq_true hd
  obtain ⟨delivered, -, -, -, horder, -⟩ :=
    feed_delivered_in_order cfg ['A'] 1 _ _ 0 _ d hrun
  exact ⟨d, hrun, hts, hskew, hversion, horder⟩

end Candlestore.Feed
