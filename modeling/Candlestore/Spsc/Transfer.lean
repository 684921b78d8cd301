import Candlestore.Lib.Fair
import Candlestore.Spsc.Fifo

/-!
# Blocking transfers complete

A producer pushes a list of items, one blocking call after the other, and a
consumer pops as many.  Both spin: a full ring sends the producer back to its
loads, an empty one the consumer, and neither waits for the other in any way the
scheduler could see.  Whatever the schedule, as long as it leaves neither side out
for ever, every item arrives, in order, and both sides return.

The argument looks at one side at a time.  While something is in flight the
consumer is at most four of its own accesses away from a pop, and nothing the
producer does puts it back; while there is room the same holds of the producer.
-/

namespace Candlestore.Spsc

open Lib

variable {c : Capacity} {α : Type}

/-- A producer with the items it has still to push and a consumer with the number of
items it has still to ask for. -/
structure Transfer (c : Capacity) (α : Type) where
  ring : State c α
  todo : List α
  want : Nat

/-- Who moves. -/
inductive Party where
  | producer
  | consumer
  deriving DecidableEq, Repr

/-- The next access of a side, or its next call. -/
def transferStep (kind : PushKind) (s : Transfer c α) : Party → Option (Transfer c α)
  | .producer =>
      match s.ring.producer, s.todo with
      | .idle, [] => none
      | .idle, x :: xs =>
          (step s.ring (.callPush kind x)).map fun ring => { s with ring, todo := xs }
      | .running .., _ => (step s.ring .producer).map fun ring => { s with ring }
  | .consumer =>
      match s.ring.consumer, s.want with
      | .running .., _ => (step s.ring .consumer).map fun ring => { s with ring }
      | _, 0 => none
      | _, want + 1 =>
          (step s.ring (.callPop .pop)).map fun ring => { s with ring, want }

/-- All items are still to be sent. -/
def Transfer.start (slots : Fin c.size → α) (reader : Reader c) (items : List α) :
    Transfer c α where
  ring := .start slots (some reader)
  todo := items
  want := items.length

/-! ## Both sides are somewhere in their lists -/

/-- The item of the push under way. -/
def Producer.inHand : Producer c α → List α
  | .idle => []
  | .running _ item _ _ _ => [item]

/-- Pops under way. -/
def Consumer.asking : Consumer c α → Nat
  | .running _ _ _ => 1
  | _ => 0

/-- The push under way is one of `kind`. -/
def Producer.runs (kind : PushKind) : Producer c α → Prop
  | .idle => True
  | .running kind' _ _ _ _ => kind' = kind

/-- The pop under way is a blocking one, and there is a reader. -/
def Consumer.runs : Consumer c α → Prop
  | .closed => False
  | .idle _ => True
  | .running _ kind _ => kind = .pop

/-- Nothing is lost between what was sent and what is still to be sent. -/
structure TransferInv (kind : PushKind) (items : List α) (s : Transfer c α) : Prop where
  ring : Inv s.ring
  producer : s.ring.producer.runs kind
  consumer : s.ring.consumer.runs
  cancel : s.ring.cancel = false
  sent : s.ring.channel.pushed ++ s.ring.producer.inHand ++ s.todo = items
  asked : s.ring.channel.popped.length + s.ring.consumer.asking + s.want = items.length

/-- How far the producer is from its next `head` store, if there is room. -/
def Producer.rank : Producer c α → Nat
  | .idle => 5
  | .running _ _ _ _ pc => pc.rank

/-- How far the consumer is from its next `tail` store, if something is in flight. -/
def Consumer.rank : Consumer c α → Nat
  | .closed => 0
  | .idle _ => 5
  | .running _ _ pc => pc.rank

/-! ## What an access does -/

/-- What a step of the producer does to the transfer: it stores `head`, or it keeps
what was pushed and, if there was room, comes nearer to it. -/
theorem PushMove.progress {kind : PushKind} (hkind : kind ≠ .tryPush) {s t : State c α}
    (h : Inv s) (hcancel : s.cancel = false) {item : α} {stalled : Bool}
    {start : WriterView c α} {pc : PushPc} {result : PushResult}
    (hp : s.producer = .running kind item stalled start pc)
    (hmove : PushMove s kind item stalled start pc result t) :
    t.producer.runs kind ∧
      (t.channel.pushed = s.channel.pushed ++ [item] ∧ t.producer = .idle ∨
        t.channel.pushed = s.channel.pushed ∧ t.producer.inHand = [item] ∧
          (s.channel.inFlight < c.size → t.producer.rank < s.producer.rank)) := by
  have hok := h.producer
  rw [hp] at hok ⊢
  cases hmove with
  | nearer pc' hproducer hpushed _ _ hlt =>
      rw [hproducer]
      exact ⟨rfl, .inr ⟨hpushed, rfl, fun _ => hlt⟩⟩
  | full head hpc hfull hproducer hpushed =>
      subst hpc
      obtain ⟨rfl, -⟩ := hok
      obtain ⟨pc', hagain⟩ := afterFull_blocking hkind item stalled start
      rw [hproducer, hagain]
      refine ⟨rfl, .inr ⟨hpushed, rfl, fun hroom => ?_⟩⟩
      have := h.channel.full_iff.1 hfull
      omega
  | pushed hproducer hpushed =>
      rw [hproducer]
      exact ⟨trivial, .inl ⟨hpushed, rfl⟩⟩
  | counted hpc hproducer hpushed | resumed hpc _ hproducer hpushed =>
      subst hpc
      rw [hproducer]
      exact ⟨rfl, .inr ⟨hpushed, rfl, fun _ => Nat.lt_succ_self _⟩⟩
  | cancelled _ hset => cases hcancel.symm.trans hset

theorem PopMove.progress {s t : State c α} (h : Inv s) {reader : Reader c} {pc : PopPc α}
    {result : PopResult α} (hq : s.consumer = .running reader .pop pc)
    (hmove : PopMove s reader .pop pc result t) :
    t.consumer.runs ∧
      (t.channel.popped.length = s.channel.popped.length + 1 ∧ t.consumer.asking = 0 ∨
        t.channel.popped = s.channel.popped ∧ t.consumer.asking = 1 ∧
          (0 < s.channel.inFlight → t.consumer.rank < s.consumer.rank)) := by
  have hok := h.consumer
  rw [hq] at hok ⊢
  cases hmove with
  | nearer pc' hconsumer hchannel hlt =>
      rw [hconsumer, hchannel]
      exact ⟨rfl, .inr ⟨rfl, rfl, fun _ => hlt⟩⟩
  | empty tail hpc hempty hconsumer hchannel =>
      subst hpc
      have htail : tail = s.channel.tail := hok
      subst htail
      rw [hconsumer, hchannel]
      refine ⟨rfl, .inr ⟨rfl, rfl, fun hflight => ?_⟩⟩
      have := h.channel.empty_iff.1 hempty
      omega
  | popped tail item hpc hconsumer hchannel =>
      rw [hconsumer, hchannel]
      exact ⟨trivial, .inl ⟨List.length_append .., rfl⟩⟩

section Steps

variable {kind : PushKind} {items : List α} {s t : Transfer c α}

theorem TransferInv.start (kind : PushKind) (slots : Fin c.size → α) (reader : Reader c)
    (items : List α) : TransferInv kind items (Transfer.start slots reader items) where
  ring := Inv.start slots (some reader)
  producer := trivial
  consumer := trivial
  cancel := rfl
  sent := rfl
  asked := by simp [Transfer.start, State.start, Channel.fresh, Consumer.asking]

/-- A step of the producer leaves the consumer alone, and pushes or comes nearer. -/
theorem TransferInv.producer_step (hkind : kind ≠ .tryPush)
    (h : TransferInv kind items s) (hstep : transferStep kind s .producer = some t) :
    TransferInv kind items t ∧ t.ring.consumer = s.ring.consumer ∧
      t.ring.channel.popped = s.ring.channel.popped ∧
      (t.ring.channel.pushed.length = s.ring.channel.pushed.length + 1 ∨
        t.ring.channel.pushed = s.ring.channel.pushed ∧
          (s.ring.channel.inFlight < c.size →
            t.ring.producer.rank < s.ring.producer.rank)) := by
  have hruns := h.producer
  have hsent := h.sent
  have hasked := h.asked
  unfold transferStep at hstep
  cases hp : s.ring.producer with
  | idle =>
      rw [hp] at hsent
      cases htodo : s.todo with
      | nil =>
          simp only [hp, htodo] at hstep
          cases hstep
      | cons x xs =>
          simp only [hp, htodo] at hstep
          obtain ⟨ring, hring, rfl⟩ := Option.map_eq_some_iff.1 hstep
          obtain rfl := step_callPush hring
          refine ⟨?_, rfl, rfl, .inr ⟨rfl, fun _ => Nat.lt_succ_self _⟩⟩
          refine ⟨h.ring.step hring, rfl, h.consumer, h.cancel, ?_, hasked⟩
          rw [← hsent, htodo]
          simp [Producer.inHand]
  | running kind' item stalled start pc =>
      rw [hp] at hruns hsent
      have hkind' : kind' = kind := hruns
      subst hkind'
      simp only [hp] at hstep
      obtain ⟨ring, hring, rfl⟩ := Option.map_eq_some_iff.1 hstep
      have hinv := h.ring.step hring
      simp only [step, hp, Option.some.injEq] at hring
      subst hring
      obtain ⟨hconsumer, hpopped⟩ := pushStep_frame s.ring kind' item stalled start pc
      obtain ⟨hruns', hprogress⟩ := (pushStep_move ..).progress hkind h.ring h.cancel hp
      refine ⟨⟨hinv, hruns', ?_, ?_, ?_, ?_⟩, hconsumer, hpopped, ?_⟩
      · exact hconsumer ▸ h.consumer
      · exact (pushStep_cancel ..).trans h.cancel
      · rcases hprogress with ⟨hpushed, hidle⟩ | ⟨hpushed, hhand, -⟩
        · rw [hpushed, hidle, ← hsent]
          simp [Producer.inHand]
        · rw [hpushed, hhand, ← hsent]
          rfl
      · rw [hconsumer, hpopped]
        exact hasked
      · rcases hprogress with ⟨hpushed, -⟩ | ⟨hpushed, -, hrank⟩
        · exact .inl (by rw [hpushed, List.length_append, List.length_singleton])
        · exact .inr ⟨hpushed, hp ▸ hrank⟩

/-- A step of the consumer leaves the producer alone, and pops or comes nearer. -/
theorem TransferInv.consumer_step (h : TransferInv kind items s)
    (hstep : transferStep kind s .consumer = some t) :
    TransferInv kind items t ∧ t.ring.producer = s.ring.producer ∧
      t.ring.channel.pushed = s.ring.channel.pushed ∧
      (t.ring.channel.popped.length = s.ring.channel.popped.length + 1 ∨
        t.ring.channel.popped = s.ring.channel.popped ∧
          (0 < s.ring.channel.inFlight →
            t.ring.consumer.rank < s.ring.consumer.rank)) := by
  have hruns := h.consumer
  have hsent := h.sent
  have hasked := h.asked
  unfold transferStep at hstep
  cases hq : s.ring.consumer with
  | closed =>
      rw [hq] at hruns
      exact hruns.elim
  | idle reader =>
      rw [hq] at hasked
      cases hwant : s.want with
      | zero =>
          simp only [hq, hwant] at hstep
          cases hstep
      | succ want =>
          simp only [hq, hwant] at hstep
          obtain ⟨ring, hring, rfl⟩ := Option.map_eq_some_iff.1 hstep
          have hinv := h.ring.step hring
          obtain ⟨reader', rfl⟩ := step_callPop hring
          refine ⟨?_, rfl, rfl, .inr ⟨rfl, fun _ => Nat.lt_succ_self _⟩⟩
          refine ⟨hinv, h.producer, rfl, h.cancel, hsent, ?_⟩
          rw [hwant] at hasked
          rw [← hasked]
          simp only [Consumer.asking]
          omega
  | running reader kind' pc =>
      rw [hq] at hruns hasked
      have hkind' : kind' = .pop := hruns
      subst hkind'
      simp only [hq] at hstep
      obtain ⟨ring, hring, rfl⟩ := Option.map_eq_some_iff.1 hstep
      have hinv := h.ring.step hring
      simp only [step, hq, Option.some.injEq] at hring
      subst hring
      obtain ⟨hproducer, hpushed⟩ := popStep_frame s.ring reader .pop pc
      obtain ⟨hruns', hprogress⟩ := (popStep_move ..).progress h.ring hq
      refine ⟨⟨hinv, ?_, hruns', (popStep_cancel ..).trans h.cancel, ?_, ?_⟩, hproducer,
        hpushed, ?_⟩
      · exact hproducer ▸ h.producer
      · rw [hproducer, hpushed]
        exact hsent
      · rw [← hasked]
        simp only [Consumer.asking] at hprogress ⊢
        rcases hprogress with ⟨hpopped, hnone⟩ | ⟨hpopped, hone, -⟩
        · rw [hpopped, hnone]
        · rw [hpopped, hone]
      · rcases hprogress with ⟨hpopped, -⟩ | ⟨hpopped, -, hrank⟩
        · exact .inl hpopped
        · exact .inr ⟨hpopped, hq ▸ hrank⟩

theorem TransferInv.step (hkind : kind ≠ .tryPush) (h : TransferInv kind items s)
    {side : Party} (hstep : transferStep kind s side = some t) :
    TransferInv kind items t := by
  cases side with
  | producer => exact (h.producer_step hkind hstep).1
  | consumer => exact (h.consumer_step hstep).1

end Steps

/-! ## Liveness -/

/-- The accesses of the two cursors that are still to come. -/
def Transfer.left (items : List α) (s : Transfer c α) : Nat :=
  2 * items.length - s.ring.channel.pushed.length - s.ring.channel.popped.length

/-- Both sides have made all their calls and returned from them. -/
def Transfer.Done (s : Transfer c α) : Prop :=
  s.ring.producer.inHand = [] ∧ s.todo = [] ∧ s.ring.consumer.asking = 0 ∧ s.want = 0

section Liveness

variable {kind : PushKind} {items : List α} {s t : Transfer c α}

theorem TransferInv.pushed_le (h : TransferInv kind items s) :
    s.ring.channel.pushed.length + s.ring.producer.inHand.length + s.todo.length =
      items.length := by
  rw [← h.sent, List.length_append, List.length_append]

theorem TransferInv.done_of_left (h : TransferInv kind items s)
    (hpushed : s.ring.channel.pushed.length = items.length)
    (hpopped : s.ring.channel.popped.length = items.length) :
    s.Done ∧ s.ring.channel.popped = items := by
  have hsent := h.pushed_le
  have hasked := h.asked
  have hhand : s.ring.producer.inHand = [] := List.length_eq_zero_iff.1 (by omega)
  have htodo : s.todo = [] := List.length_eq_zero_iff.1 (by omega)
  refine ⟨⟨hhand, htodo, by omega, by omega⟩, ?_⟩
  have hpre := h.ring.channel.fifo.eq_of_length (by omega)
  rw [hpre, ← h.sent, hhand, htodo, List.append_nil, List.append_nil]

/-- While something is in flight the consumer brings the end nearer. -/
theorem left_falls_of_inFlight (hkind : kind ≠ .tryPush)
    (r : WeakRun (transferStep (c := c) (α := α) kind) some) {n : Nat}
    (h : TransferInv kind items (r.state n))
    (hflight : 0 < (r.state n).ring.channel.inFlight) :
    ∃ k, n ≤ k ∧ (r.state k).left items < (r.state n).left items := by
  generalize hb : (r.state n).left items = b
  refine r.leadsTo .consumer (P := fun s => TransferInv kind items s ∧
    0 < s.ring.channel.inFlight ∧ s.left items ≤ b) (Q := fun s => s.left items < b)
    (fun s => s.ring.consumer.rank) ?_ ?_ ⟨h, hflight, hb.le⟩
  · rintro s side t ⟨hs, hfl, hb⟩ hstep
    have hpl := hs.pushed_le
    have hasked := hs.asked
    have hle := hs.ring.channel.length_le
    simp only [Transfer.left, Channel.inFlight] at hfl hb ⊢
    cases side with
    | producer =>
        obtain ⟨ht, hconsumer, hpopped, hpush⟩ := hs.producer_step hkind hstep
        have htl := ht.pushed_le
        rw [hpopped, hconsumer]
        rcases hpush with hmore | ⟨hsame, -⟩
        · left
          omega
        · right
          rw [hsame]
          exact ⟨⟨ht, hfl, hb⟩, Nat.le_refl _, fun h => by cases h⟩
    | consumer =>
        obtain ⟨ht, -, hpushed, hpop⟩ := hs.consumer_step hstep
        rw [hpushed]
        rcases hpop with hmore | ⟨hsame, hrank⟩
        · left
          omega
        · right
          have hlt := hrank hfl
          rw [hsame]
          exact ⟨⟨ht, hfl, hb⟩, hlt.le, fun _ => hlt⟩
  · rintro s ⟨hs, hfl, -⟩
    refine ⟨.consumer, rfl, ?_⟩
    have hpl := hs.pushed_le
    have hasked := hs.asked
    have hruns := hs.consumer
    rw [Channel.inFlight] at hfl
    unfold transferStep
    cases hq : s.ring.consumer with
    | closed =>
        rw [hq] at hruns
        exact hruns.elim
    | running reader kind' pc => simp [step, hq]
    | idle reader =>
        have hnone : s.ring.consumer.asking = 0 := by rw [hq]; rfl
        obtain ⟨want, hwant⟩ := Nat.exists_eq_succ_of_ne_zero (n := s.want) (by omega)
        simp [step, hq, hwant]

/-- While there is room and something left to push, the producer does. -/
theorem left_falls_of_room (hkind : kind ≠ .tryPush)
    (r : WeakRun (transferStep (c := c) (α := α) kind) some) {n : Nat}
    (h : TransferInv kind items (r.state n))
    (hroom : (r.state n).ring.channel.inFlight < c.size)
    (hmore : (r.state n).ring.channel.pushed.length < items.length) :
    ∃ k, n ≤ k ∧ (r.state k).left items < (r.state n).left items := by
  generalize hb : (r.state n).left items = b
  refine r.leadsTo .producer (P := fun s => TransferInv kind items s ∧
    s.ring.channel.inFlight < c.size ∧ s.ring.channel.pushed.length < items.length ∧
    s.left items ≤ b) (Q :=
    fun s => s.left items < b) (fun s => s.ring.producer.rank) ?_ ?_
    ⟨h, hroom, hmore, hb.le⟩
  · rintro s side t ⟨hs, hrm, hlt, hb⟩ hstep
    have hpl := hs.pushed_le
    have hasked := hs.asked
    have hle := hs.ring.channel.length_le
    simp only [Transfer.left, Channel.inFlight] at hrm hb ⊢
    cases side with
    | producer =>
        obtain ⟨ht, -, hpopped, hpush⟩ := hs.producer_step hkind hstep
        rw [hpopped]
        rcases hpush with hpushed | ⟨hsame, hrank⟩
        · left
          omega
        · right
          have hless := hrank hrm
          rw [hsame]
          exact ⟨⟨ht, hrm, hlt, hb⟩, hless.le, fun _ => hless⟩
    | consumer =>
        obtain ⟨ht, hproducer, hpushed, hpop⟩ := hs.consumer_step hstep
        rw [hpushed, hproducer]
        rcases hpop with hpopped | ⟨hsame, -⟩
        · left
          omega
        · right
          rw [hsame]
          exact ⟨⟨ht, hrm, hlt, hb⟩, Nat.le_refl _, fun h => by cases h⟩
  · rintro s ⟨hs, -, hlt, -⟩
    refine ⟨.producer, rfl, ?_⟩
    have hpl := hs.pushed_le
    unfold transferStep
    cases hp : s.ring.producer with
    | running kind' item stalled start pc => simp [step, hp]
    | idle =>
        rw [hp, Producer.inHand, List.length_nil] at hpl
        obtain ⟨x, xs, htodo⟩ := List.exists_cons_of_length_pos (l := s.todo) (by omega)
        simp [step, hp, htodo]

/-- Under any schedule that leaves neither side out for ever, blocking pushes and
pops move the whole list through the ring, in order, and both sides return; at
every time the consumer has a prefix of the list. -/
theorem blocking_transfer_completes (kind : PushKind) (hkind : kind ≠ .tryPush)
    (slots : Fin c.size → α) (reader : Reader c) (items : List α)
    (r : WeakRun (transferStep kind) some)
    (hstart : r.state 0 = Transfer.start slots reader items) :
    (∀ n, (r.state n).ring.channel.popped <+: items) ∧
      ∃ n, (r.state n).Done ∧ (r.state n).ring.channel.popped = items := by
  have hinv : ∀ n, TransferInv kind items (r.state n) := fun n =>
    r.stable (fun s side t hs hstep => hs.step hkind hstep) (Nat.zero_le n)
      (hstart ▸ TransferInv.start kind slots reader items)
  refine ⟨?_, ?_⟩
  · intro n
    have h := hinv n
    rw [← h.sent, List.append_assoc]
    exact h.ring.channel.fifo.trans (List.prefix_append ..)
  · have hfalls : ∀ n, ¬((r.state n).Done ∧ (r.state n).ring.channel.popped = items) →
        ∃ k, n ≤ k ∧ (r.state k).left items < (r.state n).left items := by
      intro n hnot
      have h := hinv n
      have hpl := h.pushed_le
      have hle := h.ring.channel.length_le
      by_cases hflight : 0 < (r.state n).ring.channel.inFlight
      · exact left_falls_of_inFlight hkind r h hflight
      · have hempty : (r.state n).ring.channel.inFlight = 0 := by omega
        by_cases hmore : (r.state n).ring.channel.pushed.length < items.length
        · exact left_falls_of_room hkind r h (hempty ▸ c.size_pos) hmore
        · rw [Channel.inFlight] at hempty
          exact absurd (h.done_of_left (by omega) (by omega)) hnot
    obtain ⟨k, -, hk⟩ := r.eventually_of_falls
      (fun s => s.Done ∧ s.ring.channel.popped = items) (Transfer.left items) hfalls 0
    exact ⟨k, hk⟩

end Liveness

/-- Three items through a ring of two slots, the third push stalled until the first
pop. -/
theorem blocking_transfer_completes_stalled :
    let c : Capacity := ⟨2, by decide⟩
    ∃ r : WeakRun (transferStep (c := c) (α := Nat) .shmPush) some,
      r.state 0 = Transfer.start (fun _ => 0) ⟨2, rfl⟩ [1, 2, 3] ∧
      (∀ n, (r.state n).ring.channel.popped <+: [1, 2, 3]) ∧
      ∃ n, (r.state n).Done ∧ (r.state n).ring.channel.popped = [1, 2, 3] := by
  intro c
  obtain ⟨t, hrun, ht⟩ := exists_exec (transferStep (c := c) (α := Nat) .shmPush)
    (Transfer.start (fun _ => 0) ⟨2, rfl⟩ [1, 2, 3])
    (List.replicate 14 .producer ++ List.replicate 5 .consumer ++
      List.replicate 4 .producer ++ List.replicate 10 .consumer)
    (fun t => (transferStep .shmPush t .producer).isNone ∧
      (transferStep .shmPush t .consumer).isNone) (by decide +kernel)
  obtain ⟨hproducer, hconsumer⟩ := of_decide_eq_true ht
  have hend : ∀ a i, some a = some i → transferStep .shmPush t a = none := by
    intro a _ _
    cases a with
    | producer => exact Option.isNone_iff_eq_none.1 hproducer
    | consumer => exact Option.isNone_iff_eq_none.1 hconsumer
  exact ⟨.ofExec some hrun hend, rfl,
    blocking_transfer_completes .shmPush (by decide) (fun _ => 0) ⟨2, rfl⟩
      [1, 2, 3] _ rfl⟩

end Candlestore.Spsc
