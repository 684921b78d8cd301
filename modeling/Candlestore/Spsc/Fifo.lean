import Mathlib.Data.List.Infix
import Candlestore.Spsc.Moves

/-!
# The ring is a bounded first-in first-out channel

`ChannelInv` ties the cursors and the slots to the sequences of pushed and
popped items.  Each side acts on its own exact cursor and on an old value of
the other's, and the other side only ever moves in the direction that keeps
its decision good: `ProducerOk` and `ConsumerOk` say what each program point
may rely on, and survive every step of the other side.
-/

namespace Candlestore.Spsc

open Lib

variable {c : Capacity} {α : Type}

/-- How the memory represents the items in flight. -/
structure ChannelInv (ch : Channel c α) : Prop where
  head_eq : ch.head = UInt64.ofNat ch.pushed.length
  tail_eq : ch.tail = UInt64.ofNat ch.popped.length
  fifo : ch.popped <+: ch.pushed
  bounded : ch.pushed.length ≤ ch.popped.length + c.size
  /-- The items in flight are in their slots. -/
  live : ∀ i x, ch.popped.length ≤ i → ch.pushed[i]? = some x →
    ch.slots (c.slot (UInt64.ofNat i)) = x

/-- What the producer may rely on at each program point. -/
def ProducerOk (ch : Channel c α) : Producer c α → Prop
  | .idle => True
  | .running _ _ _ start .loadHead => start = ch.toWriterView
  | .running _ _ _ start .countFull => start = ch.toWriterView
  | .running _ _ _ start .checkCancel => start = ch.toWriterView
  | .running _ _ _ start (.loadTail head) => head = ch.head ∧ start = ch.toWriterView
  | .running _ _ _ _ (.write head) =>
      head = ch.head ∧ ch.pushed.length < ch.popped.length + c.size
  | .running _ item _ _ (.storeHead head) =>
      head = ch.head ∧ ch.pushed.length < ch.popped.length + c.size ∧
        ch.slots (c.slot head) = item

/-- What the consumer may rely on at each program point. -/
def ConsumerOk (ch : Channel c α) : Consumer c α → Prop
  | .closed => True
  | .idle _ => True
  | .running _ _ .loadTail => True
  | .running _ _ (.loadHead tail) => tail = ch.tail
  | .running _ _ (.read tail) => tail = ch.tail ∧ ch.popped.length < ch.pushed.length
  | .running _ _ (.storeTail tail item) =>
      tail = ch.tail ∧ ch.pushed[ch.popped.length]? = some item

/-- What an outcome says about the ring. -/
def Event.Sound : Event c α → Prop
  | .full inFlight => inFlight = c.size
  | .empty inFlight => inFlight = 0
  | .cancelled before after => before = after
  | .pushed _ => True
  | .popped _ => True

/-- The invariant of the ring, from which everything else about it follows. -/
structure Inv (s : State c α) : Prop where
  channel : ChannelInv s.channel
  producer : ProducerOk s.channel s.producer
  consumer : ConsumerOk s.channel s.consumer
  log : ∀ e ∈ s.log, e.Sound

namespace ChannelInv

variable {ch : Channel c α}

theorem fresh (slots : Fin c.size → α) : ChannelInv (Channel.fresh slots) where
  head_eq := rfl
  tail_eq := rfl
  fifo := List.prefix_refl _
  bounded := Nat.zero_le _
  live := fun _ _ _ h => by cases h

theorem length_le (h : ChannelInv ch) : ch.popped.length ≤ ch.pushed.length :=
  h.fifo.length_le

theorem inFlight_le (h : ChannelInv ch) : ch.inFlight ≤ c.size := by
  have := h.bounded
  rw [Channel.inFlight]
  omega

/-- The writer's wrapping difference is the number of items in flight. -/
theorem head_sub_tail (h : ChannelInv ch) : (ch.head - ch.tail).toNat = ch.inFlight := by
  have hle := h.length_le
  have hnear := h.inFlight_le
  have hsize := c.size_lt
  rw [h.head_eq, h.tail_eq]
  exact toNat_counter_sub hle (Nat.lt_of_le_of_lt hnear hsize)

/-- The writer's test is that the ring is full. -/
theorem full_iff (h : ChannelInv ch) :
    c.word ≤ ch.head - ch.tail ↔ ch.inFlight = c.size := by
  have hle := h.inFlight_le
  rw [UInt64.le_iff_toNat_le, h.head_sub_tail]
  exact ⟨fun hge => Nat.le_antisymm hle hge, fun heq => heq.ge⟩

/-- The reader's test is that the ring is empty. -/
theorem empty_iff (h : ChannelInv ch) : ch.head = ch.tail ↔ ch.inFlight = 0 := by
  have hle := h.length_le
  have hnear := h.inFlight_le
  have hsize := c.size_lt
  rw [h.head_eq, h.tail_eq, counter_eq_iff hle (Nat.lt_of_le_of_lt hnear hsize),
    Channel.inFlight]
  omega

/-- With room left, the slot at `head` holds nothing in flight. -/
theorem write (h : ChannelInv ch) (hroom : ch.pushed.length < ch.popped.length + c.size)
    (item : α) : ChannelInv (ch.write ch.head item) := by
  refine { h with live := ?_ }
  intro i x hi hx
  have hlt : i < ch.pushed.length := (List.getElem?_eq_some_iff.1 hx).1
  have hne : c.slot (UInt64.ofNat i) ≠ c.slot ch.head := by
    rw [h.head_eq]
    exact c.slot_counter_ne hlt (hroom.trans_le (Nat.add_le_add_right hi _))
  calc (ch.write ch.head item).slots (c.slot (UInt64.ofNat i))
      = ch.slots (c.slot (UInt64.ofNat i)) := Function.update_of_ne hne _ _
    _ = x := h.live i x hi hx

theorem storeHead (h : ChannelInv ch)
    (hroom : ch.pushed.length < ch.popped.length + c.size) {item : α}
    (hslot : ch.slots (c.slot ch.head) = item) :
    ChannelInv (ch.storeHead ch.head item) where
  head_eq := by
    simp only [Channel.storeHead, List.length_append, List.length_singleton,
      ofNat_succ_word, h.head_eq]
  tail_eq := h.tail_eq
  fifo := h.fifo.trans (List.prefix_append _ _)
  bounded := by
    simp only [Channel.storeHead, List.length_append, List.length_singleton]
    omega
  live := by
    intro i x hi hx
    rcases Nat.lt_or_ge i ch.pushed.length with hlt | hge
    · exact h.live i x hi
        (by rwa [Channel.storeHead, List.getElem?_append_left hlt] at hx)
    · rw [Channel.storeHead, List.getElem?_append_right hge,
        List.getElem?_singleton] at hx
      split at hx
      · have hi : i = ch.pushed.length := by omega
        rw [hi, ← h.head_eq]
        exact hslot.trans (Option.some.inj hx)
      · cases hx

/-- The slot at `tail` holds the oldest item in flight. -/
theorem slot_tail (h : ChannelInv ch) (hlt : ch.popped.length < ch.pushed.length) :
    ch.pushed[ch.popped.length]? = some (ch.slots (c.slot ch.tail)) := by
  have hget := List.getElem?_eq_getElem hlt
  rw [hget, h.tail_eq, h.live _ _ le_rfl hget]

theorem storeTail (h : ChannelInv ch) {item : α}
    (hitem : ch.pushed[ch.popped.length]? = some item) :
    ChannelInv (ch.storeTail ch.tail item) where
  head_eq := h.head_eq
  tail_eq := by
    simp only [Channel.storeTail, List.length_append, List.length_singleton,
      ofNat_succ_word, h.tail_eq]
  fifo := by
    obtain ⟨rest, hrest⟩ := h.fifo
    rw [← hrest, List.getElem?_append_right le_rfl, Nat.sub_self] at hitem
    cases rest with
    | nil => cases hitem
    | cons x rest =>
        cases hitem
        exact ⟨rest, by rw [Channel.storeTail, List.append_assoc]; exact hrest⟩
  bounded := by
    have := h.bounded
    simp only [Channel.storeTail, List.length_append, List.length_singleton]
    omega
  live := by
    intro i x hi hx
    refine h.live i x ?_ hx
    simp only [Channel.storeTail, List.length_append] at hi
    omega

end ChannelInv

/-! ## What one side's steps leave to the other -/

theorem ProducerOk.storeTail {ch : Channel c α} {p : Producer c α} (h : ProducerOk ch p)
    (tail : UInt64) (item : α) : ProducerOk (ch.storeTail tail item) p := by
  have hlen : (ch.storeTail tail item).popped.length = ch.popped.length + 1 :=
    List.length_append
  cases p with
  | idle => trivial
  | running kind x stalled start pc =>
      cases pc with
      | loadHead | countFull | checkCancel => exact h
      | loadTail head => exact h
      | write head => exact ⟨h.1, by have := h.2; rw [hlen]; exact this.trans (by omega)⟩
      | storeHead head =>
          exact ⟨h.1, by have := h.2.1; rw [hlen]; exact this.trans (by omega), h.2.2⟩

theorem ConsumerOk.write {ch : Channel c α} {q : Consumer c α} (h : ConsumerOk ch q)
    (head : UInt64) (item : α) : ConsumerOk (ch.write head item) q := by
  cases q with
  | closed | idle => trivial
  | running reader kind pc => cases pc <;> exact h

theorem ConsumerOk.storeHead {ch : Channel c α} {q : Consumer c α} (h : ConsumerOk ch q)
    (head : UInt64) (item : α) : ConsumerOk (ch.storeHead head item) q := by
  cases q with
  | closed | idle => trivial
  | running reader kind pc =>
      cases pc with
      | loadTail => trivial
      | loadHead tail => exact h
      | read tail =>
          refine ⟨h.1, ?_⟩
          rw [Channel.storeHead, List.length_append]
          exact Nat.lt_add_right _ h.2
      | storeTail tail x =>
          have hlt := (List.getElem?_eq_some_iff.1 h.2).1
          exact ⟨h.1, (List.getElem?_append_left hlt).trans h.2⟩

/-! ## Steps -/

/-- A push begins while the writer is idle, with the writer's view of the ring. -/
theorem step_callPush {s t : State c α} {kind : PushKind} {item : α}
    (h : step s (.callPush kind item) = some t) :
    t = { s with
      producer := .running kind item false s.channel.toWriterView .loadHead } := by
  simp only [step] at h
  split at h
  · exact (Option.some.inj h).symm
  · cases h

theorem step_callPop {s t : State c α} {kind : PopKind}
    (h : step s (.callPop kind) = some t) :
    ∃ reader, t = { s with consumer := .running reader kind .loadTail } := by
  simp only [step] at h
  split at h
  · exact ⟨_, (Option.some.inj h).symm⟩
  · cases h

theorem Event.sound_snoc {log : List (Event c α)} (hlog : ∀ e ∈ log, e.Sound)
    {e : Event c α} (he : e.Sound) : ∀ e' ∈ log ++ [e], e'.Sound := by
  intro e' hmem
  rcases List.mem_append.1 hmem with h | h
  · exact hlog e' h
  · rwa [List.mem_singleton.1 h]

theorem producerOk_afterFull {ch : Channel c α} (kind : PushKind) (item : α)
    (stalled : Bool) {start : WriterView c α} (hstart : start = ch.toWriterView) :
    ProducerOk ch (afterFull kind item stalled start) := by
  cases kind with
  | tryPush => trivial
  | spscPush => exact hstart
  | shmPush | pushUntil => cases stalled <;> exact hstart

theorem Inv.pushStep {s : State c α} (h : Inv s) {kind : PushKind} {item : α}
    {stalled : Bool} {start : WriterView c α} {pc : PushPc}
    (hp : s.producer = .running kind item stalled start pc) :
    Inv (pushStep s kind item stalled start pc) := by
  have hok := h.producer
  rw [hp] at hok
  cases pc with
  | loadHead => exact { h with producer := ⟨rfl, hok⟩ }
  | loadTail head =>
      obtain ⟨rfl, hstart⟩ := hok
      rw [Spsc.pushStep]
      split
      · rename_i hfull
        exact { h with
          producer := producerOk_afterFull kind item stalled hstart
          log := Event.sound_snoc h.log (h.channel.full_iff.1 hfull) }
      · rename_i hroom
        have hne : s.channel.inFlight ≠ c.size :=
          fun heq => hroom (h.channel.full_iff.2 heq)
        have hle := h.channel.inFlight_le
        have hlt : s.channel.pushed.length < s.channel.popped.length + c.size := by
          rw [Channel.inFlight] at hne hle
          omega
        exact { h with producer := ⟨rfl, hlt⟩ }
  | write head =>
      obtain ⟨rfl, hroom⟩ := hok
      exact {
        channel := h.channel.write hroom item
        producer := ⟨rfl, hroom, Function.update_self _ _ _⟩
        consumer := h.consumer.write _ _
        log := h.log }
  | storeHead head =>
      obtain ⟨rfl, hroom, hslot⟩ := hok
      exact {
        channel := h.channel.storeHead hroom hslot
        producer := trivial
        consumer := h.consumer.storeHead _ _
        log := Event.sound_snoc h.log trivial }
  | countFull => exact { h with producer := hok }
  | checkCancel =>
      rw [Spsc.pushStep]
      split
      · exact { h with producer := trivial, log := Event.sound_snoc h.log hok }
      · exact { h with producer := hok }

theorem Inv.popStep {s : State c α} (h : Inv s) {reader : Reader c} {kind : PopKind}
    {pc : PopPc α} (hq : s.consumer = .running reader kind pc) :
    Inv (popStep s reader kind pc) := by
  have hok := h.consumer
  rw [hq] at hok
  cases pc with
  | loadTail => exact { h with consumer := rfl }
  | loadHead tail =>
      have htail : tail = s.channel.tail := hok
      subst htail
      rw [Spsc.popStep]
      split
      · rename_i hempty
        refine { h with
          consumer := ?_
          log := Event.sound_snoc h.log (h.channel.empty_iff.1 hempty) }
        cases kind <;> trivial
      · rename_i hne
        have hflight : s.channel.inFlight ≠ 0 :=
          fun heq => hne (h.channel.empty_iff.2 heq)
        have hlt : s.channel.popped.length < s.channel.pushed.length := by
          rw [Channel.inFlight] at hflight
          omega
        exact { h with consumer := ⟨rfl, hlt⟩ }
  | read tail =>
      obtain ⟨rfl, hlt⟩ := hok
      refine { h with consumer := ⟨rfl, ?_⟩ }
      rw [reader.slot_eq]
      exact h.channel.slot_tail hlt
  | storeTail tail item =>
      obtain ⟨rfl, hitem⟩ := hok
      exact {
        channel := h.channel.storeTail hitem
        producer := h.producer.storeTail _ _
        consumer := trivial
        log := Event.sound_snoc h.log trivial }

theorem Inv.step {s t : State c α} (h : Inv s) {a : Action α}
    (hstep : step s a = some t) : Inv t := by
  cases a with
  | callPush kind item =>
      obtain rfl := step_callPush hstep
      exact { h with producer := rfl }
  | producer =>
      simp only [Spsc.step] at hstep
      split at hstep
      · cases hstep
      · rename_i hp
        cases hstep
        exact h.pushStep hp
  | setCancel cancel =>
      cases hstep
      exact { h with }
  | openReader capacity =>
      simp only [Spsc.step] at hstep
      split at hstep
      · cases hstep
        exact { h with consumer := trivial }
      · cases hstep
        exact h
      · cases hstep
  | closeReader =>
      simp only [Spsc.step] at hstep
      split at hstep
      · cases hstep
        exact { h with consumer := trivial }
      · cases hstep
  | callPop kind =>
      obtain ⟨reader, rfl⟩ := step_callPop hstep
      exact { h with consumer := trivial }
  | consumer =>
      simp only [Spsc.step] at hstep
      split at hstep
      · rename_i hq
        cases hstep
        exact h.popStep hq
      · cases hstep

theorem Inv.start (slots : Fin c.size → α) (reader : Option (Reader c)) :
    Inv (State.start slots reader) where
  channel := .fresh slots
  producer := trivial
  consumer := by cases reader <;> trivial
  log := fun _ h => by cases h

theorem Inv.of_exec {slots : Fin c.size → α} {reader : Option (Reader c)}
    {as : List (Action α)} {s : State c α}
    (hrun : exec Spsc.step (State.start slots reader) as = some s) : Inv s :=
  exec_invariant (fun _ _ _ h hstep => h.step hstep) hrun (Inv.start slots reader)

/-! ## The channel -/

/-- The items in flight, oldest first. -/
def Channel.queue (ch : Channel c α) : List α := ch.pushed.drop ch.popped.length

/-- A step of the abstract bounded queue. -/
inductive QueueStep (bound : Nat) : List α → List α → Prop
  | stay (q : List α) : QueueStep bound q q
  | enqueue (q : List α) (x : α) (hroom : q.length < bound) :
      QueueStep bound q (q ++ [x])
  | dequeue (x : α) (q : List α) : QueueStep bound (x :: q) q

theorem queueStep_storeHead {ch : Channel c α} (h : ChannelInv ch)
    (hroom : ch.pushed.length < ch.popped.length + c.size) (head : UInt64) (item : α) :
    QueueStep c.size ch.queue (ch.storeHead head item).queue := by
  have hsnoc : (ch.storeHead head item).queue = ch.queue ++ [item] :=
    List.drop_append_of_le_length h.length_le
  rw [hsnoc]
  refine .enqueue _ _ ?_
  have hle := h.length_le
  rw [Channel.queue, List.length_drop]
  omega

theorem queueStep_storeTail {ch : Channel c α} {item : α}
    (hitem : ch.pushed[ch.popped.length]? = some item) (tail : UInt64) :
    QueueStep c.size ch.queue (ch.storeTail tail item).queue := by
  obtain ⟨hlt, hget⟩ := List.getElem?_eq_some_iff.1 hitem
  have hcons : ch.queue = item :: (ch.storeTail tail item).queue := by
    rw [Channel.queue, List.drop_eq_getElem_cons hlt, hget, Channel.queue,
      Channel.storeTail, List.length_append, List.length_singleton]
  rw [hcons]
  exact .dequeue _ _

/-- The ring refines the bounded queue: the `head` store enqueues, the `tail`
store dequeues, and no other step is visible. -/
theorem step_refines_queue {s t : State c α} (h : Inv s) {a : Action α}
    (hstep : step s a = some t) :
    QueueStep c.size s.channel.queue t.channel.queue := by
  cases a with
  | producer =>
      simp only [step] at hstep
      split at hstep
      · cases hstep
      · rename_i kind item stalled start pc hp
        cases hstep
        have hok := h.producer
        rw [hp] at hok
        cases pc with
        | loadHead | write | countFull => exact .stay _
        | loadTail head =>
            rw [pushStep]
            split <;> exact .stay _
        | checkCancel =>
            rw [pushStep]
            split <;> exact .stay _
        | storeHead head => exact queueStep_storeHead h.channel hok.2.1 head item
  | consumer =>
      simp only [step] at hstep
      split at hstep
      · rename_i reader kind pc hq
        cases hstep
        have hok := h.consumer
        rw [hq] at hok
        cases pc with
        | loadTail | read => exact .stay _
        | loadHead tail =>
            rw [popStep]
            split <;> exact .stay _
        | storeTail tail item => exact queueStep_storeTail hok.2 tail
      · cases hstep
  | callPush | openReader | closeReader | callPop =>
      simp only [step] at hstep
      split at hstep <;> first | (cases hstep; exact .stay _) | cases hstep
  | setCancel =>
      cases hstep
      exact .stay _

/-- The slot the producer is about to write. -/
def Producer.writeSlot : Producer c α → Option (Fin c.size)
  | .running _ _ _ _ (.write head) => some (c.slot head)
  | _ => none

/-- The slot the consumer works on between its `head` load and its `tail`
store. -/
def Consumer.heldSlot : Consumer c α → Option (Fin c.size)
  | .running reader _ (.read tail) => some (reader.slot tail)
  | .running reader _ (.storeTail tail _) => some (reader.slot tail)
  | _ => none

theorem Inv.heldSlot {s : State c α} (h : Inv s) {i : Fin c.size}
    (hi : s.consumer.heldSlot = some i) :
    i = c.slot s.channel.tail ∧ s.channel.popped.length < s.channel.pushed.length := by
  have hok := h.consumer
  revert hi hok
  cases s.consumer with
  | closed | idle => exact fun hi => by cases hi
  | running reader kind pc =>
      cases pc with
      | loadTail | loadHead => exact fun hi => by cases hi
      | read tail =>
          rintro hi ⟨rfl, hlt⟩
          exact ⟨(Option.some.inj hi).symm.trans (reader.slot_eq _), hlt⟩
      | storeTail tail item =>
          rintro hi ⟨rfl, hitem⟩
          exact ⟨(Option.some.inj hi).symm.trans (reader.slot_eq _),
            (List.getElem?_eq_some_iff.1 hitem).1⟩

theorem Inv.writeSlot {s : State c α} (h : Inv s) {i : Fin c.size}
    (hi : s.producer.writeSlot = some i) :
    i = c.slot s.channel.head ∧
      s.channel.pushed.length < s.channel.popped.length + c.size := by
  have hok := h.producer
  revert hi hok
  cases s.producer with
  | idle => exact fun hi => by cases hi
  | running kind item stalled start pc =>
      cases pc with
      | write head =>
          rintro hi ⟨rfl, hroom⟩
          exact ⟨(Option.some.inj hi).symm, hroom⟩
      | loadHead | loadTail | storeHead | countFull | checkCancel =>
          exact fun hi => by cases hi

/-- The producer never writes the slot the consumer is working on. -/
theorem Inv.writeSlot_ne_heldSlot {s : State c α} (h : Inv s) {i : Fin c.size}
    (hi : s.producer.writeSlot = some i) : s.consumer.heldSlot ≠ some i := by
  intro hheld
  obtain ⟨hhead, hroom⟩ := h.writeSlot hi
  obtain ⟨htail, hlt⟩ := h.heldSlot hheld
  refine c.slot_counter_ne hlt hroom ?_
  rw [← h.channel.head_eq, ← h.channel.tail_eq, ← hhead, ← htail]

/-- Every run of the ring, over any capacity, any number of reader sessions and
any wrap of the cursors: the popped items are the first pushed items, the ring
is never over-full, the two sides never meet in a slot, and each refusal is
justified by the ring at the moment it was decided. -/
theorem ring_is_bounded_fifo (slots : Fin c.size → α) (reader : Option (Reader c))
    (as : List (Action α)) (s : State c α)
    (hrun : exec step (State.start slots reader) as = some s) :
    s.channel.popped <+: s.channel.pushed ∧
      s.channel.pushed.length ≤ s.channel.popped.length + c.size ∧
      (∀ i, s.producer.writeSlot = some i → s.consumer.heldSlot ≠ some i) ∧
      (∀ inFlight, .full inFlight ∈ s.log → inFlight = c.size) ∧
      (∀ inFlight, .empty inFlight ∈ s.log → inFlight = 0) ∧
      (∀ before after, .cancelled before after ∈ s.log → before = after) := by
  have h := Inv.of_exec hrun
  exact ⟨h.channel.fifo, h.channel.bounded, fun _ => h.writeSlot_ne_heldSlot,
    fun _ => h.log _, fun _ => h.log _, fun _ _ => h.log _⟩

/-- A shared-memory ring of one slot: the first reader pops one item and
closes, a second push finds the ring full and is cancelled, and the second
reader pops the item left in the slot. -/
theorem ring_is_bounded_fifo_two_sessions :
    let c : Capacity := ⟨1, by decide⟩
    let push (kind : PushKind) (item : Nat) : List (Action Nat) :=
      .callPush kind item :: List.replicate 4 .producer
    let pop : List (Action Nat) := .callPop .tryPop :: List.replicate 4 .consumer
    let as : List (Action Nat) :=
      push .tryPush 7 ++ [.openReader 2, .openReader 1] ++ pop ++ [.closeReader] ++
        push .tryPush 8 ++ [.setCancel true, .callPush .pushUntil 9] ++
        List.replicate 6 .producer ++ [.openReader 1] ++ pop
    ∃ s, exec step (State.start (c := c) (fun _ => 0) none) as = some s ∧
      s.channel.popped = [7, 8] ∧ s.pushFull = 1 ∧ s.log.length = 7 ∧
      s.channel.popped <+: s.channel.pushed := by
  intro c push pop as
  obtain ⟨s, hrun, hs⟩ := exists_exec step (State.start (c := c) (fun _ => 0) none) as
    (fun s => s.channel.popped = [7, 8] ∧ s.pushFull = 1 ∧ s.log.length = 7)
    (by decide +kernel)
  obtain ⟨hpopped, hfull, hlog⟩ := of_decide_eq_true hs
  exact ⟨s, hrun, hpopped, hfull, hlog, (ring_is_bounded_fifo _ _ _ _ hrun).1⟩

end Candlestore.Spsc
