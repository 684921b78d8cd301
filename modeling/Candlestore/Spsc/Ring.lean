import Mathlib.Logic.Function.Basic
import Candlestore.Lib.System
import Candlestore.Lib.Wrapping

/-!
# The single-producer single-consumer ring

`SpscWriter`/`SpscReader` and `ShmRingWriter`/`ShmRingReader` run the same two
loops over a slot array and two free-running 64-bit cursors.  Every load and
store of shared memory is one step here, and a run interleaves the steps of the
producer, of the consumer, of whoever flips the cancel flag and of the opening
and closing of reader sessions.

`Channel` is the shared memory together with the two sequences the ring is
about: the items whose `head` store has happened and the items whose `tail`
store has happened.  The code never reads those two.
-/

namespace Candlestore.Spsc

open Lib

/-- A ring capacity that has passed `is_power_of_two`. -/
structure Capacity where
  word : UInt64
  powerOfTwo : word.toNat = 2 ^ word.toNat.log2

/-- The assertions of `SpscRing::new` and `ShmRingWriter::create`. -/
inductive CapacityPanic where
  | zero
  | notPowerOfTwo
  deriving DecidableEq, Repr

namespace Capacity

/-- The checks of `SpscRing::new`, zero first. -/
def new (capacity : UInt64) : Except CapacityPanic Capacity :=
  if capacity = 0 then .error .zero
  else if h : capacity.toNat = 2 ^ capacity.toNat.log2 then .ok ⟨capacity, h⟩
  else .error .notPowerOfTwo

/-- The number of slots. -/
def size (c : Capacity) : Nat := c.word.toNat

theorem size_eq (c : Capacity) : c.size = 2 ^ c.word.toNat.log2 := c.powerOfTwo

theorem size_pos (c : Capacity) : 0 < c.size := by
  rw [size_eq]
  exact Nat.two_pow_pos _

theorem size_lt (c : Capacity) : c.size < 2 ^ 64 := c.word.toNat_lt

theorem log_le (c : Capacity) : c.word.toNat.log2 ≤ 64 := by
  have hlt := c.size_lt
  rw [size_eq] at hlt
  exact ((Nat.pow_lt_pow_iff_right (by decide)).1 hlt).le

/-- `cursor as usize & (capacity - 1)`. -/
def slot (c : Capacity) (cursor : UInt64) : Fin c.size :=
  ⟨(cursor &&& (c.word - 1)).toNat, by
    rw [toNat_and_mask cursor c.word c.powerOfTwo, ← size_eq]
    exact Nat.mod_lt _ c.size_pos⟩

theorem slot_counter (c : Capacity) (n : Nat) :
    (c.slot (UInt64.ofNat n)).val = n % c.size := by
  have hmask := toNat_and_mask (UInt64.ofNat n) c.word c.powerOfTwo
  rw [toNat_counter_mod n c.log_le, ← c.size_eq] at hmask
  exact hmask

/-- Counters less than the capacity apart use different slots. -/
theorem slot_counter_ne (c : Capacity) {m n : Nat} (hlt : m < n)
    (hnear : n < m + c.size) : c.slot (UInt64.ofNat m) ≠ c.slot (UInt64.ofNat n) := by
  intro h
  have hval := congrArg Fin.val h
  rw [slot_counter, slot_counter] at hval
  exact mod_ne_of_lt hlt hnear hval

end Capacity

section Model

variable (c : Capacity) (α : Type)

/-- What a push can change: the slots, the `head` cursor and the sequence of
pushed items. -/
structure WriterView where
  slots : Fin c.size → α
  head : UInt64
  pushed : List α

/-- The shared memory, with the sequences of pushed and popped items. -/
structure Channel extends WriterView c α where
  tail : UInt64
  popped : List α

/-- Which method the producer is in: the `push` of `SpscWriter` only spins, the
one of `ShmRingWriter` also counts the stall. -/
inductive PushKind where
  | tryPush
  | spscPush
  | shmPush
  | pushUntil
  deriving DecidableEq, Repr

/-- The next shared access of a push, with the locals loaded so far. -/
inductive PushPc where
  | loadHead
  | loadTail (head : UInt64)
  | write (head : UInt64)
  | storeHead (head : UInt64)
  | countFull
  | checkCancel
  deriving DecidableEq, Repr

/-- `stalled` says that the first attempt of the call has failed; `start` is
what the call found when it began. -/
inductive Producer where
  | idle
  | running (kind : PushKind) (item : α) (stalled : Bool) (start : WriterView c α)
      (pc : PushPc)

/-- `try_pop` gives up on an empty ring, `pop` spins. -/
inductive PopKind where
  | tryPop
  | pop
  deriving DecidableEq, Repr

/-- The next shared access of a pop, with the locals loaded so far. -/
inductive PopPc where
  | loadTail
  | loadHead (tail : UInt64)
  | read (tail : UInt64)
  | storeTail (tail : UInt64) (item : α)

/-- A reader half: its own copy of the capacity, which `open` has compared with
the writer's. -/
structure Reader where
  capacity : UInt64
  agrees : capacity = c.word

/-- The reader: not there, between two calls, or in one. -/
inductive Consumer where
  | closed
  | idle (reader : Reader c)
  | running (reader : Reader c) (kind : PopKind) (pc : PopPc α)

/-- What a call returned, with the facts about the ring that it depended on. -/
inductive Event where
  /-- An attempt returned `false`; that many items were in flight at its `tail` load. -/
  | full (inFlight : Nat)
  | pushed (item : α)
  /-- `push_until` returned `false`: the ring at the call and at the return. -/
  | cancelled (before after : WriterView c α)
  /-- An attempt returned `None`; that many items were in flight at its `head` load. -/
  | empty (inFlight : Nat)
  | popped (item : α)

/-- A ring, the flag that cancels its pushes, the two sides and
what they have returned. -/
structure State where
  channel : Channel c α
  cancel : Bool
  pushFull : UInt64
  producer : Producer c α
  consumer : Consumer c α
  log : List (Event c α)

/-- One action of a run: a call by either side, the next step of either side,
the cancel flag, or a reader session. -/
inductive Action where
  | callPush (kind : PushKind) (item : α)
  | producer
  | setCancel (cancel : Bool)
  | openReader (capacity : UInt64)
  | closeReader
  | callPop (kind : PopKind)
  | consumer

end Model

/-- How `ShmRingReader::open` refuses a segment that is ready. -/
inductive OpenError where
  | notPowerOfTwo
  | capacityMismatch (requested writer : UInt64)
  deriving DecidableEq, Repr

variable {c : Capacity} {α : Type}

/-- `ShmRingReader::open`, once the segment is mapped and ready. -/
def Reader.open (capacity : UInt64) : Except OpenError (Reader c) :=
  if capacity.toNat = 2 ^ capacity.toNat.log2 then
    if h : capacity = c.word then .ok ⟨capacity, h⟩
    else .error (.capacityMismatch capacity c.word)
  else .error .notPowerOfTwo

/-- The slot of a cursor under the reader's own mask. -/
def Reader.slot (reader : Reader c) (cursor : UInt64) : Fin c.size :=
  ⟨(cursor &&& (reader.capacity - 1)).toNat, by
    rw [reader.agrees]
    exact (c.slot cursor).isLt⟩

theorem Reader.slot_eq (reader : Reader c) (cursor : UInt64) :
    reader.slot cursor = c.slot cursor := by
  apply Fin.ext
  simp only [Reader.slot, Capacity.slot, reader.agrees]

namespace Channel

/-- A fresh ring over whatever its slots hold. -/
def fresh (slots : Fin c.size → α) : Channel c α :=
  { slots, head := 0, pushed := [], tail := 0, popped := [] }

/-- The items in the ring. -/
def inFlight (ch : Channel c α) : Nat := ch.pushed.length - ch.popped.length

/-- The slot write of `try_push`. -/
def write (ch : Channel c α) (head : UInt64) (item : α) : Channel c α :=
  { ch with slots := Function.update ch.slots (c.slot head) item }

/-- The `head` store of `try_push`. -/
def storeHead (ch : Channel c α) (head : UInt64) (item : α) : Channel c α :=
  { ch with head := head + 1, pushed := ch.pushed ++ [item] }

/-- The `tail` store of `try_pop`. -/
def storeTail (ch : Channel c α) (tail : UInt64) (item : α) : Channel c α :=
  { ch with tail := tail + 1, popped := ch.popped ++ [item] }

end Channel

/-- Where a failed attempt leaves the producer. -/
def afterFull (kind : PushKind) (item : α) (stalled : Bool) (start : WriterView c α) :
    Producer c α :=
  match kind, stalled with
  | .tryPush, _ => .idle
  | .spscPush, _ => .running kind item stalled start .loadHead
  | .shmPush, true => .running kind item stalled start .loadHead
  | .pushUntil, true => .running kind item stalled start .checkCancel
  | .shmPush, false | .pushUntil, false => .running kind item stalled start .countFull

/-- Where an attempt that found the ring empty leaves the consumer. -/
def afterEmpty (reader : Reader c) (kind : PopKind) : Consumer c α :=
  match kind with
  | .tryPop => .idle reader
  | .pop => .running reader kind .loadTail

/-- The next step of a push in progress. -/
def pushStep (s : State c α) (kind : PushKind) (item : α) (stalled : Bool)
    (start : WriterView c α) : PushPc → State c α
  | .loadHead =>
      { s with producer := .running kind item stalled start (.loadTail s.channel.head) }
  | .loadTail head =>
      if c.word ≤ head - s.channel.tail then
        { s with
          producer := afterFull kind item stalled start
          log := s.log ++ [.full s.channel.inFlight] }
      else { s with producer := .running kind item stalled start (.write head) }
  | .write head =>
      { s with
        channel := s.channel.write head item
        producer := .running kind item stalled start (.storeHead head) }
  | .storeHead head =>
      { s with
        channel := s.channel.storeHead head item
        producer := .idle
        log := s.log ++ [.pushed item] }
  | .countFull =>
      { s with
        pushFull := s.pushFull + 1
        producer := .running kind item true start .loadHead }
  | .checkCancel =>
      if s.cancel then
        { s with
          producer := .idle
          log := s.log ++ [.cancelled start s.channel.toWriterView] }
      else { s with producer := .running kind item stalled start .loadHead }

/-- The next step of a pop in progress. -/
def popStep (s : State c α) (reader : Reader c) (kind : PopKind) : PopPc α → State c α
  | .loadTail => { s with consumer := .running reader kind (.loadHead s.channel.tail) }
  | .loadHead tail =>
      if s.channel.head = tail then
        { s with
          consumer := afterEmpty reader kind
          log := s.log ++ [.empty s.channel.inFlight] }
      else { s with consumer := .running reader kind (.read tail) }
  | .read tail =>
      { s with
        consumer := .running reader kind
          (.storeTail tail (s.channel.slots (reader.slot tail))) }
  | .storeTail tail item =>
      { s with
        channel := s.channel.storeTail tail item
        consumer := .idle reader
        log := s.log ++ [.popped item] }

/-- One action of a run, where it is enabled.  A session is closed only between
pops: `ShmRingReader` is dropped by the thread that owns it. -/
def step (s : State c α) : Action α → Option (State c α)
  | .callPush kind item =>
      match s.producer with
      | .idle =>
          some { s with
            producer := .running kind item false s.channel.toWriterView .loadHead }
      | .running .. => none
  | .producer =>
      match s.producer with
      | .idle => none
      | .running kind item stalled start pc =>
          some (pushStep s kind item stalled start pc)
  | .setCancel cancel => some { s with cancel }
  | .openReader capacity =>
      match s.consumer, Reader.open (c := c) capacity with
      | .closed, .ok reader => some { s with consumer := .idle reader }
      | .closed, .error _ => some s
      | _, _ => none
  | .closeReader =>
      match s.consumer with
      | .idle _ => some { s with consumer := .closed }
      | _ => none
  | .callPop kind =>
      match s.consumer with
      | .idle reader => some { s with consumer := .running reader kind .loadTail }
      | _ => none
  | .consumer =>
      match s.consumer with
      | .running reader kind pc => some (popStep s reader kind pc)
      | _ => none

/-- A fresh ring: with its reader half (`SpscRing::new`), or without one
(`ShmRingWriter::create`). -/
def State.start (slots : Fin c.size → α) (reader : Option (Reader c)) : State c α where
  channel := .fresh slots
  cancel := false
  pushFull := 0
  producer := .idle
  consumer := match reader with
    | some reader => .idle reader
    | none => .closed
  log := []

end Candlestore.Spsc
