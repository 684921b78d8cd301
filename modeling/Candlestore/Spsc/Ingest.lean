import Candlestore.Spsc.Fifo
import Candlestore.Store.Rejected

/-!
# From the shared-memory ring to the store

`ShmIngester` pops candles from the ring and appends them to one symbol of the
store until its `running` flag is cleared.  The steps of `try_pop` are those of
`Candlestore.Spsc.Ring`; an append is one step, because nobody else writes to the
store.  A run interleaves the ingester with a producer and with a `stop` at any
time.

`IngestInv` says that what has left the ring is what the store has been given,
followed by the candle the ingester has in hand; `Fed` says what a store is that
has been given a sequence of candles.
-/

namespace Candlestore.Spsc

open Lib

/-- The next thing the ingester does. -/
inductive IngestPc (F : Type) where
  /-- Load `running`. -/
  | check
  /-- The next step of `try_pop`. -/
  | pop
  | append (candle : Candle F)
  /-- Count the candle in `popped`. -/
  | count
  | stopped
  /-- The append of this candle did not return. -/
  | stuck (candle : Candle F)

/-- The ingester thread has returned. -/
def IngestPc.isStopped {F : Type} : IngestPc F → Bool
  | .stopped => true
  | _ => false

theorem IngestPc.eq_stopped {F : Type} {pc : IngestPc F} (h : pc.isStopped = true) :
    pc = .stopped := by
  cases pc with
  | stopped => rfl
  | check | pop | append | count | stuck => cases h

/-- The candle that has left the ring and is not in the store. -/
def IngestPc.inHand {F : Type} : IngestPc F → List (Candle F)
  | .append candle => [candle]
  | .stuck candle => [candle]
  | _ => []

/-- Appends not yet counted in `popped`. -/
def IngestPc.uncounted {F : Type} : IngestPc F → Nat
  | .count => 1
  | _ => 0

/-- The ring, the ingester and the store it feeds. -/
structure Pipeline (c : Capacity) (F : Type) where
  ring : State c (Candle F)
  running : Bool
  pc : IngestPc F
  popped : UInt64
  store : Store F
  appendsRejected : Nat

/-- The steps of the feed, of the ingester and of whoever stops it. -/
inductive PipelineAct (F : Type) where
  /-- A step on the producer's side of the ring. -/
  | producer (a : Action (Candle F))
  /-- `stop` or `stop_signal` clears `running`. -/
  | stop
  /-- The next step of the ingester, with the outcome of a spill. -/
  | ingester (io : SpillIo)

/-- The action belongs to the producer or to whoever cancels its push. -/
def Action.byProducer {α : Type} : Action α → Bool
  | .callPush _ _ => true
  | .producer => true
  | .setCancel _ => true
  | _ => false

variable {c : Capacity} {F : Type}

/-- Where an access of `try_pop` leaves the ingester: back at the loop when the
ring was empty, with a candle in hand after the `tail` store. -/
def IngestPc.afterPop : PopResult (Candle F) → IngestPc F
  | .running => .pop
  | .empty => .check
  | .popped candle => .append candle

/-- An access of `try_pop` puts what it takes out of the ring into the ingester's hand.
-/
theorem PopMove.popped_eq {s t : State c (Candle F)} {reader : Reader c} {kind : PopKind}
    {pc : PopPc (Candle F)} {result : PopResult (Candle F)}
    (hmove : PopMove s reader kind pc result t) :
    t.channel.popped = s.channel.popped ++ (IngestPc.afterPop result).inHand := by
  cases hmove with
  | nearer _ _ hchannel | empty _ _ _ _ hchannel =>
      rw [hchannel]
      exact (List.append_nil _).symm
  | popped tail item _ _ hchannel =>
      rw [hchannel]
      rfl

section Steps

variable [F64 F] (cfg : Config) (symbol : Symbol)

/-- The loop of the ingester thread. -/
def ingestStep (p : Pipeline c F) (io : SpillIo) : Option (Pipeline c F) :=
  match p.pc with
  | .check =>
      if p.running then
        (step p.ring (.callPop .tryPop)).map fun ring =>
          { p with ring := ring, pc := .pop }
      else some { p with pc := .stopped }
  | .pop =>
      match p.ring.consumer with
      | .running reader kind pc =>
          some { p with
            ring := popStep p.ring reader kind pc
            pc := .afterPop (popResult p.ring pc) }
      | _ => none
  | .append candle =>
      match p.store.append cfg p.appendsRejected symbol candle io with
      | some (store, rejected) =>
          some { p with store := store, appendsRejected := rejected, pc := .count }
      | none => some { p with pc := .stuck candle }
  | .count => some { p with popped := p.popped + 1, pc := .check }
  | _ => none

/-- One such step. -/
def pipelineStep (p : Pipeline c F) : PipelineAct F → Option (Pipeline c F)
  | .producer a =>
      if a.byProducer then (step p.ring a).map fun ring => { p with ring := ring }
      else none
  | .stop => some { p with running := false }
  | .ingester io => ingestStep cfg symbol p io

end Steps

/-- A fresh ring with its reader open, and a new store. -/
def Pipeline.start (slots : Fin c.size → Candle F) (reader : Reader c) :
    Pipeline c F where
  ring := .start slots (some reader)
  running := true
  pc := .check
  popped := 0
  store := .new
  appendsRejected := 0

/-! ## What the store has been given -/

section Feeding

variable [F64 F]

/-- The candles that pass `Candle::is_valid`. -/
def validOf (candles : List (Candle F)) : List (Candle F) :=
  candles.filter Candle.isValid

theorem validOf_snoc_valid {given : List (Candle F)} {x : Candle F}
    (h : x.isValid = true) : validOf (given ++ [x]) = validOf given ++ [x] := by
  simp [validOf, h]

theorem validOf_snoc_invalid {given : List (Candle F)} {x : Candle F}
    (h : x.isValid = false) : validOf (given ++ [x]) = validOf given := by
  simp [validOf, h]

/-- The store after `symbol` has been given some candles and no other symbol
any. -/
structure Fed (cfg : Config) (symbol : Symbol) (s : Store F) (given : List (Candle F)) :
    Prop where
  only : ∀ k e, s.map.lookup k = some e → k = symbol
  absent : s.map.lookup symbol = none → validOf given = []
  live : ∀ e, s.map.lookup symbol = some e → e.removed = false
  capacity : ∀ e, s.map.lookup symbol = some e → e.buf.capacity = cfg.ringCapacity
  started : ∀ e, s.map.lookup symbol = some e → validOf given ≠ []
  ring : ∀ e, s.map.lookup symbol = some e →
    e.buf.toVec = (validOf given).rtake cfg.ringCapacity
  version : s.version = (validOf given).length
  invalid : s.invalidCandles + (validOf given).length = given.length

namespace Fed

variable {cfg : Config} {symbol : Symbol} {s s' : Store F} {given : List (Candle F)}
  {x : Candle F} {io : SpillIo} {r : Except AppendError Unit}

theorem new : Fed cfg symbol (Store.new : Store F) [] where
  only := by
    intro k e he
    simp [Store.new] at he
  absent := fun _ => rfl
  live := by
    intro e he
    simp [Store.new] at he
  capacity := by
    intro e he
    simp [Store.new] at he
  started := by
    intro e he
    simp [Store.new] at he
  ring := by
    intro e he
    simp [Store.new] at he
  version := rfl
  invalid := rfl

theorem toVec_ne_nil (h : Fed cfg symbol s given) (k : Symbol) (e : Entry F)
    (hk : s.map.lookup k = some e) : e.buf.toVec ≠ [] := by
  obtain rfl := h.only k e hk
  have hcap : 0 < e.buf.capacity := Nat.lt_of_le_of_lt (Nat.zero_le _) e.buf.head_lt
  have hpos : 0 < (validOf given).length := List.length_pos_of_ne_nil (h.started e hk)
  rw [h.capacity e hk] at hcap
  rw [h.ring e hk, ← List.length_pos_iff, List.rtake, List.length_drop]
  omega

/-- A valid candle, after which the symbol has the entry `e`. -/
theorem accept (h : Fed cfg symbol s given) {e : Entry F} (hvalid : x.isValid = true)
    (hmap : ∀ k, s'.map.lookup k = if k = symbol then some e else s.map.lookup k)
    (hlive : e.removed = false) (hcap : e.buf.capacity = cfg.ringCapacity)
    (hring : e.buf.toVec = (validOf given ++ [x]).rtake cfg.ringCapacity)
    (hversion : s'.version = s.version + 1)
    (hinvalid : s'.invalidCandles = s.invalidCandles) :
    Fed cfg symbol s' (given ++ [x]) := by
  have hself : ∀ e', s'.map.lookup symbol = some e' → e' = e := by
    intro e' he'
    rw [hmap symbol, if_pos rfl] at he'
    exact (Option.some.inj he').symm
  refine
    { only := ?_
      absent := ?_
      live := fun e' he' => hself e' he' ▸ hlive
      capacity := fun e' he' => hself e' he' ▸ hcap
      started := ?_
      ring := ?_
      version := ?_
      invalid := ?_ }
  · intro k e' hk
    by_contra hne
    rw [hmap k, if_neg hne] at hk
    exact hne (h.only k e' hk)
  · intro hnone
    rw [hmap symbol, if_pos rfl] at hnone
    cases hnone
  · intro _ _
    rw [validOf_snoc_valid hvalid]
    exact List.append_ne_nil_of_right_ne_nil _ (List.cons_ne_nil _ _)
  · intro e' he'
    rw [hself e' he', validOf_snoc_valid hvalid, hring]
  · rw [hversion, h.version, validOf_snoc_valid hvalid, List.length_append,
      List.length_singleton]
  · have hbefore := h.invalid
    rw [hinvalid, validOf_snoc_valid hvalid, List.length_append, List.length_append,
      List.length_singleton]
    omega

/-- An invalid candle, which leaves the entries alone. -/
theorem discard (h : Fed cfg symbol s given) (hvalid : x.isValid = false)
    (hmap : s'.map = s.map) (hversion : s'.version = s.version)
    (hinvalid : s'.invalidCandles = s.invalidCandles + 1) :
    Fed cfg symbol s' (given ++ [x]) := by
  have hsame : validOf (given ++ [x]) = validOf given := validOf_snoc_invalid hvalid
  refine
    { only := by rw [hmap]; exact h.only
      absent := by rw [hmap, hsame]; exact h.absent
      live := by rw [hmap]; exact h.live
      capacity := by rw [hmap]; exact h.capacity
      started := by rw [hmap, hsame]; exact h.started
      ring := by rw [hmap, hsame]; exact h.ring
      version := by rw [hversion, hsame]; exact h.version
      invalid := ?_ }
  have hbefore := h.invalid
  rw [hinvalid, hsame, List.length_append, List.length_singleton]
  omega

/-- One more candle.  With one symbol nothing is ever evicted. -/
theorem append (h : Fed cfg symbol s given)
    (hcall : s.tryAppend cfg symbol x io = some (s', r)) :
    Fed cfg symbol s' (given ++ [x]) := by
  obtain ⟨_, hinvalid, hcount⟩ := tryAppend_counters hcall
  have hlive : ∀ k e, s.map.lookup k = some e → e.removed = false := by
    intro k e hk
    obtain rfl := h.only k e hk
    exact h.live e hk
  have heffect := tryAppend_effect cfg s s' symbol x io r hlive h.toVec_ne_nil hcall
  cases heffect with
  | invalid hvalid hmap _ =>
      rw [hvalid] at hinvalid
      exact h.discard hvalid hmap (hcount.rejected _ rfl).1 hinvalid
  | hit e hvalid hget hmap _ =>
      rw [hvalid] at hinvalid
      have hcap := h.capacity e hget
      have hring : e.buf.toVec = (validOf given).rtake e.buf.capacity := by
        rw [hcap]
        exact h.ring e hget
      refine h.accept hvalid hmap (h.live e hget) ?_ ?_ (hcount.accepted rfl) hinvalid
      · rw [RingBuffer.capacity_push, hcap]
      · rw [e.buf.toVec_push x _ hring, hcap]
  | admitted hcap hvalid hnone hmap _ =>
      rw [hvalid] at hinvalid
      refine h.accept hvalid hmap rfl ?_ ?_ (hcount.accepted rfl) hinvalid
      · rw [firstRing, RingBuffer.capacity_push, RingBuffer.capacity_new]
      · rw [firstRing, RingBuffer.toVec_new_push, h.absent hnone, List.nil_append,
          rtake_of_length_le hcap]
  | evicted _ key e _ hnone hkey _ _ =>
      obtain rfl := h.only key e hkey
      rw [hnone] at hkey
      cases hkey
  | refused key e _ _ hnone hkey _ _ =>
      obtain rfl := h.only key e hkey
      rw [hnone] at hkey
      cases hkey

/-- The append returns: there is no victim to spill. -/
theorem returns (h : Fed cfg symbol s given) (hcap : 0 < cfg.ringCapacity) (x : Candle F)
    (io : SpillIo) : ∃ s' r, s.tryAppend cfg symbol x io = some (s', r) := by
  unfold Store.tryAppend
  cases hvalid : x.isValid with
  | false => exact ⟨_, _, rfl⟩
  | true =>
      simp only [Bool.not_true, Bool.false_eq_true, if_false]
      cases hget : s.map.lookup symbol with
      | some e =>
          simp only [Store.pushAndPublish, h.live e hget, Bool.false_eq_true, if_false]
          exact ⟨_, _, rfl⟩
      | none =>
          have hvictim : evictKey s.map = none := by
            cases hkey : evictKey s.map with
            | none => rfl
            | some key =>
                obtain ⟨e, he⟩ := evictKey_resident s.map key hkey
                obtain rfl := h.only key e he
                rw [hget] at he
                cases he
          simp only [Store.tryInsertNew, dif_pos hcap, hget, hvictim]
          split <;> exact ⟨_, _, rfl⟩

/-- What the queries of the symbol return. -/
theorem lastN (h : Fed cfg symbol s given) (n : Nat) :
    s.lastN symbol n = ((validOf given).rtake cfg.ringCapacity).rtake n := by
  unfold Store.lastN
  cases hget : s.map.lookup symbol with
  | none =>
      rw [h.absent hget]
      simp [List.rtake]
  | some e => rw [← h.ring e hget]; exact e.buf.lastN_eq_rtake n

/-- The ring of the symbol. -/
theorem hotRows_eq (h : Fed cfg symbol s given) :
    hotRows s symbol = (validOf given).rtake cfg.ringCapacity := by
  unfold hotRows
  cases hget : s.map.lookup symbol with
  | none => rw [h.absent hget, List.rtake_nil]
  | some e => exact h.ring e hget

theorem candleCount (h : Fed cfg symbol s given) :
    s.candleCount symbol = min cfg.ringCapacity (validOf given).length := by
  unfold Store.candleCount
  cases hget : s.map.lookup symbol with
  | none =>
      rw [h.absent hget]
      simp
  | some e =>
      show e.buf.len = _
      rw [← e.buf.length_toVec, h.ring e hget, List.rtake, List.length_drop]
      omega

end Fed

end Feeding

/-! ## Runs -/

section Runs

variable [F64 F] {cfg : Config} {symbol : Symbol} {p p' : Pipeline c F}

/-- What has left the ring has been given to the store, up to the candle in
hand, and counted, up to the append just made. -/
structure IngestInv (cfg : Config) (symbol : Symbol) (p : Pipeline c F) : Prop where
  ring : Inv p.ring
  kind : ∀ reader kind pc, p.ring.consumer = .running reader kind pc → kind = .tryPop
  fed : ∃ given, p.ring.channel.popped = given ++ p.pc.inHand ∧
    Fed cfg symbol p.store given ∧
    ∃ counted, given.length = counted + p.pc.uncounted ∧ p.popped = UInt64.ofNat counted

theorem IngestInv.start (slots : Fin c.size → Candle F) (reader : Reader c) :
    IngestInv cfg symbol (Pipeline.start slots reader) where
  ring := Inv.start slots (some reader)
  kind := fun _ _ _ hq => by cases hq
  fed := ⟨[], rfl, Fed.new, 0, rfl, rfl⟩

omit [F64 F] in
/-- The producer's side leaves the reader and what it has popped alone. -/
theorem step_byProducer {s t : State c (Candle F)} {a : Action (Candle F)}
    (ha : a.byProducer = true) (hstep : step s a = some t) :
    t.consumer = s.consumer ∧ t.channel.popped = s.channel.popped := by
  cases a with
  | callPush kind item =>
      obtain rfl := step_callPush hstep
      exact ⟨rfl, rfl⟩
  | producer =>
      simp only [step] at hstep
      split at hstep
      · cases hstep
      · next kind item stalled start pc _ =>
          cases hstep
          exact pushStep_frame s kind item stalled start pc
  | setCancel cancel =>
      cases hstep
      exact ⟨rfl, rfl⟩
  | openReader | closeReader | callPop | consumer => cases ha

/-- `append` leaves the store that `try_append` leaves. -/
theorem tryAppend_of_append {s : Store F} {rejected : Nat} {x : Candle F} {io : SpillIo}
    {result : Store F × Nat} (h : s.append cfg rejected symbol x io = some result) :
    ∃ r, s.tryAppend cfg symbol x io = some (result.1, r) := by
  simp only [Store.append, Option.bind_eq_bind, Option.bind_eq_some_iff] at h
  obtain ⟨⟨s', r⟩, htry, hrest⟩ := h
  have hstore : result.1 = s' := by
    split at hrest <;> (cases hrest; rfl)
  exact ⟨r, hstore ▸ htry⟩

theorem IngestInv.pop (h : IngestInv cfg symbol p) (hpc : p.pc = .pop)
    {reader : Reader c} {kind : PopKind} {pc : PopPc (Candle F)}
    (hq : p.ring.consumer = .running reader kind pc) :
    IngestInv cfg symbol { p with
      ring := popStep p.ring reader kind pc
      pc := .afterPop (popResult p.ring pc) } := by
  obtain ⟨given, hpopped, hfed, counted, hcounted, hcount⟩ := h.fed
  obtain rfl := h.kind reader kind pc hq
  rw [hpc, IngestPc.inHand.eq_def, List.append_nil] at hpopped
  have hmove := popStep_move p.ring reader .tryPop pc
  refine ⟨h.ring.popStep hq, fun _ _ _ => hmove.kind, given, ?_, hfed, counted,
    ?_, hcount⟩
  · exact hmove.popped_eq.trans (hpopped ▸ rfl)
  · rw [hpc] at hcounted
    cases hresult : popResult p.ring pc <;> exact hcounted

theorem IngestInv.ingest (h : IngestInv cfg symbol p) {io : SpillIo}
    (hstep : ingestStep cfg symbol p io = some p') : IngestInv cfg symbol p' := by
  obtain ⟨given, hpopped, hfed, counted, hcounted, hcount⟩ := h.fed
  unfold ingestStep at hstep
  cases hpc : p.pc with
  | check =>
      rw [hpc] at hpopped hcounted
      simp only [hpc] at hstep
      split at hstep
      · obtain ⟨ring, hring, rfl⟩ := Option.map_eq_some_iff.1 hstep
        have hinv := h.ring.step hring
        obtain ⟨reader, rfl⟩ := step_callPop hring
        exact ⟨hinv, fun _ _ _ hq => by cases hq; rfl, given, hpopped, hfed, counted,
          hcounted, hcount⟩
      · cases hstep
        exact ⟨h.ring, h.kind, given, hpopped, hfed, counted, hcounted, hcount⟩
  | pop =>
      simp only [hpc] at hstep
      split at hstep
      · next hq =>
          cases hstep
          exact h.pop hpc hq
      · cases hstep
  | append candle =>
      rw [hpc] at hpopped hcounted
      simp only [hpc] at hstep
      cases hcall : p.store.append cfg p.appendsRejected symbol candle io with
      | none =>
          simp only [hcall] at hstep
          cases hstep
          exact ⟨h.ring, h.kind, given, hpopped, hfed, counted, hcounted, hcount⟩
      | some result =>
          simp only [hcall] at hstep
          cases hstep
          obtain ⟨r, htry⟩ := tryAppend_of_append hcall
          refine ⟨h.ring, h.kind, given ++ [candle], ?_, hfed.append htry, counted,
            ?_, hcount⟩
          · rw [hpopped]
            exact (List.append_nil _).symm
          · rw [List.length_append, hcounted]
            rfl
  | count =>
      rw [hpc] at hpopped hcounted
      simp only [hpc] at hstep
      cases hstep
      refine ⟨h.ring, h.kind, given, hpopped, hfed, counted + 1, hcounted, ?_⟩
      rw [hcount, ofNat_succ_word]
  | stopped =>
      simp only [hpc] at hstep
      cases hstep
  | stuck candle =>
      simp only [hpc] at hstep
      cases hstep

theorem IngestInv.step (h : IngestInv cfg symbol p) {act : PipelineAct F}
    (hstep : pipelineStep cfg symbol p act = some p') : IngestInv cfg symbol p' := by
  cases act with
  | producer a =>
      simp only [pipelineStep, Option.ite_none_right_eq_some] at hstep
      obtain ⟨ha, hmap⟩ := hstep
      obtain ⟨ring, hring, rfl⟩ := Option.map_eq_some_iff.1 hmap
      obtain ⟨hconsumer, hpopped⟩ := step_byProducer ha hring
      refine ⟨h.ring.step hring, ?_, ?_⟩
      · rw [hconsumer]
        exact h.kind
      · rw [hpopped]
        exact h.fed
  | stop =>
      cases hstep
      exact ⟨h.ring, h.kind, h.fed⟩
  | ingester io => exact h.ingest hstep

theorem IngestInv.of_exec {slots : Fin c.size → Candle F} {reader : Reader c}
    {acts : List (PipelineAct F)}
    (hrun : exec (pipelineStep cfg symbol) (Pipeline.start slots reader) acts = some p) :
    IngestInv cfg symbol p :=
  exec_invariant (fun _ _ _ h hstep => h.step hstep) hrun (.start slots reader)

/-- The pipeline from the ring to the store, in every interleaving of the
producer, the ingester and a stop.  Between two iterations, and after the stop,
the store has been given exactly the first `n` pushed candles, where `n` is
counted by `popped` and by the `tail` of the ring: the hot ring is the end of the
valid ones among them and the counters are theirs.  At any other point what was
popped has been given to the store or is the candle in hand, and the next step
of the ingester appends that candle whether it has been stopped or not. -/
theorem feed_reaches_store (cfg : Config) (symbol : Symbol)
    (slots : Fin c.size → Candle F) (reader : Reader c) (acts : List (PipelineAct F))
    (p : Pipeline c F)
    (hrun : exec (pipelineStep cfg symbol) (Pipeline.start slots reader) acts = some p) :
    (p.pc = .check ∨ p.pc = .stopped →
      ∃ n, p.ring.channel.popped = p.ring.channel.pushed.take n ∧
        n ≤ p.ring.channel.pushed.length ∧
        p.popped = UInt64.ofNat n ∧ p.ring.channel.tail = p.popped ∧
        let valid := validOf (p.ring.channel.pushed.take n)
        (∀ m, p.store.lastN symbol m = (valid.rtake cfg.ringCapacity).rtake m) ∧
        p.store.candleCount symbol = min cfg.ringCapacity valid.length ∧
        p.store.appendsTotal 0 = valid.length ∧
        p.store.invalidCandles = n - valid.length) ∧
    (∃ given, p.ring.channel.popped = given ++ p.pc.inHand ∧
      ∀ m, p.store.lastN symbol m = ((validOf given).rtake cfg.ringCapacity).rtake m) ∧
    (∀ candle, p.pc = .append candle → 0 < cfg.ringCapacity → ∀ io, ∃ p',
      pipelineStep cfg symbol p (.ingester io) = some p' ∧ p'.pc = .count ∧
        p'.ring = p.ring) := by
  have h := IngestInv.of_exec hrun
  obtain ⟨given, hpopped, hfed, counted, hcounted, hcount⟩ := h.fed
  refine ⟨?_, ⟨given, hpopped, hfed.lastN⟩, ?_⟩
  · intro hpc
    have hidle : p.pc.inHand = [] ∧ p.pc.uncounted = 0 := by
      rcases hpc with hpc | hpc <;> rw [hpc] <;> exact ⟨rfl, rfl⟩
    rw [hidle.1, List.append_nil] at hpopped
    rw [hidle.2, Nat.add_zero] at hcounted
    have htake : p.ring.channel.pushed.take counted = given := by
      rw [← hcounted, ← hpopped]
      exact (List.prefix_iff_eq_take.1 h.ring.channel.fifo).symm
    refine ⟨counted, by rw [htake, hpopped], ?_, hcount, ?_, ?_⟩
    · rw [← hcounted, ← hpopped]
      exact h.ring.channel.length_le
    · rw [h.ring.channel.tail_eq, hpopped, hcounted, hcount]
    · rw [htake]
      refine ⟨hfed.lastN, hfed.candleCount, hfed.version, ?_⟩
      have hinvalid := hfed.invalid
      omega
  · intro candle hpc hcap io
    obtain ⟨s', r, hcall⟩ := hfed.returns hcap candle io
    have happend : ∃ rejected,
        p.store.append cfg p.appendsRejected symbol candle io = some (s', rejected) := by
      simp only [Store.append, hcall, Option.bind_eq_bind, Option.bind_some]
      split <;> exact ⟨_, rfl⟩
    obtain ⟨rejected, happend⟩ := happend
    refine ⟨{ p with store := s', appendsRejected := rejected, pc := .count },
      ?_, rfl, rfl⟩
    simp only [pipelineStep, ingestStep, hpc, happend]

/-- Two candles, the second of which is not valid, go through a ring of one slot;
the stop falls into the second iteration. -/
theorem feed_reaches_store_stopped :
    let c : Capacity := ⟨1, by decide⟩
    let cfg : Config := ⟨1, 2, false, fun _ => false⟩
    let push (candle : Candle ℚ) : List (PipelineAct ℚ) :=
      .producer (.callPush .tryPush candle) :: List.replicate 4 (.producer .producer)
    let ingest (n : Nat) : List (PipelineAct ℚ) := List.replicate n (.ingester .ok)
    let acts := push (flatCandle 0 1) ++ ingest 7 ++ push (flatCandle (-1) 1) ++
      ingest 2 ++ [.stop] ++
      ingest 6
    ∃ p, exec (pipelineStep cfg ['A'])
        (Pipeline.start (c := c) (fun _ => flatCandle 0 0) ⟨1, rfl⟩) acts = some p ∧
      p.popped = 2 ∧ p.store.lastN ['A'] 5 = [flatCandle 0 1] ∧
      ∃ n, p.popped = UInt64.ofNat n ∧
        p.store.appendsTotal 0 = (validOf (p.ring.channel.pushed.take n)).length := by
  intro c cfg push ingest acts
  obtain ⟨p, hrun, hp⟩ := exists_exec (pipelineStep cfg ['A'])
    (Pipeline.start (c := c) (fun _ => flatCandle 0 0) ⟨1, rfl⟩) acts
    (fun p => p.popped = 2 ∧ p.store.lastN ['A'] 5 = [flatCandle 0 1] ∧
      p.pc.isStopped = true) (by decide +kernel)
  obtain ⟨hpopped, hlast, hpc⟩ := of_decide_eq_true hp
  obtain ⟨n, _, _, hn, _, _, _, htotal, _⟩ :=
    (feed_reaches_store cfg ['A'] _ _ acts p hrun).1 (Or.inr (IngestPc.eq_stopped hpc))
  exact ⟨p, hrun, hpopped, hlast, n, hn, htotal⟩

end Runs

end Candlestore.Spsc
