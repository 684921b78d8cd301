import Candlestore.Lib.Threads
import Candlestore.Spsc.Ring
import Candlestore.Spsc.Segment

/-!
# Processes that share segments

Any number of processes create, open, use and drop shared-memory rings, each system
call and each access to a segment being a step of its own, and any of them may be
killed at any point.  A segment is an object of its own that its name may or may not
lead to: `shm_unlink` removes the name, and the mappings stay.

An access outside the object, or outside the mapping, is a fault.  Pages are not
modelled: an access past the last byte of the object counts as one even where the rest
of its page could be read.
-/

namespace Candlestore.Shm

open Lib Spsc

/-- What `shm_open` makes: the header, the slots behind it, and the sequences of
items that have gone in and out, which no process reads. -/
structure Object (α : Type) extends Segment where
  slots : Nat → α
  pushed : List α
  popped : List α

/-- An access to a mapped segment. -/
inductive Access where
  | ready
  | capacity
  | head
  | tail
  | slot (i : Nat)
  deriving DecidableEq, Repr

/-- Where it is in the mapping.  `head` and `tail` have cache lines of their own. -/
def Access.offset : Access → Nat
  | .ready => 0
  | .capacity => 8
  | .head => 128
  | .tail => 256
  | .slot i => slotsOffset.toNat + i * 48

/-- The fields of the header are words, and a slot holds a candle. -/
def Access.length : Access → Nat
  | .slot _ => 48
  | _ => 8

/-- The first byte behind the access. -/
def Access.last (a : Access) : Nat := a.offset + a.length

/-- The objects that exist, by number, and where the names lead. -/
structure ShmMem (α : Type) where
  objects : List (Object α)
  names : ShmName → Option Nat

/-- What a process is started for. -/
inductive ShmCall where
  /-- `create` and `create_force`. -/
  | create (name : ShmName) (capacity : UInt64) (force : Bool)
  /-- `ShmRingReader::open`. -/
  | attach (name : ShmName) (capacity : UInt64)
  deriving DecidableEq, Repr

/-- The name it asks for. -/
def ShmCall.name : ShmCall → ShmName
  | .create name _ _ => name
  | .attach name _ => name

/-- The capacity it asks for. -/
def ShmCall.capacity : ShmCall → UInt64
  | .create _ capacity _ => capacity
  | .attach _ capacity => capacity

/-- `create_force`, which takes the name from whoever has it. -/
def ShmCall.force : ShmCall → Bool
  | .create _ _ force => force
  | .attach _ _ => false

/-- The call is an `open`. -/
def ShmCall.attaches : ShmCall → Bool
  | .create _ _ _ => false
  | .attach _ _ => true

deriving instance DecidableEq for PopPc

/-- The next thing a process does. -/
inductive ShmPc (α : Type) where
  | start
  | panicked
  | failed (e : ShmError)
  /-- `create_inner`, from its first system call to the store of `ready`. -/
  | unlink
  | shmOpen
  | ftruncate (e : Nat)
  | mmap (e : Nat)
  | setCapacity (e : Nat)
  | setHead (e : Nat)
  | setTail (e : Nat)
  | setReady (e : Nat)
  /-- A writer between two attempts to push, and in one. -/
  | writer (e : Nat)
  | pushing (e : Nat) (item : α) (pc : PushPc)
  /-- The last step of the writer's `drop`. -/
  | unlinkName
  /-- `open`, from its `shm_open` to the comparison of the capacities. -/
  | lookup
  | mapSegment (e : Nat)
  | loadReady (e : Nat)
  | checkDeadline (e : Nat)
  | loadCapacity (e : Nat)
  | timedOut
  | mismatch (requested writer : UInt64)
  /-- A reader between two attempts to pop, and in one. -/
  | reader (e : Nat)
  | popping (e : Nat) (pc : PopPc α)
  | gone
  /-- An access outside the object, whose size was `found`. -/
  | fault (a : Access) (found : Option UInt64)
  deriving DecidableEq

/-- What is decided outside: whether the process is killed, what its system call answers,
whether the deadline has passed, and what an idle half does next. -/
structure ShmChoice (α : Type) where
  kill : Bool
  answer : Option ShmError
  expired : Bool
  item : Option α

variable {α τ : Type}

section Steps

variable [Inhabited α]

/-- What `shm_open` makes: a segment without a size. -/
def Object.empty : Object α where
  toSegment := Segment.empty
  slots := fun _ => default
  pushed := []
  popped := []

/-- `ftruncate`; what is cut off or added reads as zeros. -/
def Object.resize (o : Object α) (size : UInt64) : Object α :=
  { o with
    size := size
    slots := fun i =>
      if (Access.slot i).last ≤ o.size.toNat ∧ (Access.slot i).last ≤ size.toNat then
        o.slots i
      else default }

/-- Change one object. -/
def ShmMem.modify (m : ShmMem α) (e : Nat) (f : Object α → Object α) : ShmMem α :=
  { m with objects := m.objects.modify e f }

/-- One access through a mapping made for `capacity`. -/
def ShmMem.access (m : ShmMem α) (e : Nat) (capacity : UInt64) (a : Access)
    (f : Object α → ShmMem α × ShmPc α) : ShmMem α × ShmPc α :=
  match m.objects[e]? with
  | some o =>
      if a.last ≤ o.size.toNat ∧ a.last ≤ (mappingSize capacity).toNat then f o
      else (m, .fault a (some o.size))
  | none => (m, .fault a none)

/-- A store to the header. -/
def Object.setHeader (o : Object α) (f : ShmHeader → ShmHeader) : Object α :=
  { o with header := f o.header }

/-- `cursor as usize & (capacity - 1)`. -/
def slotIndex (capacity cursor : UInt64) : Nat := (cursor &&& (capacity - 1)).toNat

/-- The next step of one attempt to push.  The counter of full rings and the cancel
flag are no part of the segment. -/
def attemptPush (capacity : UInt64) (m : ShmMem α) (e : Nat) (item : α) :
    PushPc → Option (ShmMem α × ShmPc α)
  | .loadHead => some <| m.access e capacity .head fun o =>
      (m, .pushing e item (.loadTail o.header.head))
  | .loadTail head => some <| m.access e capacity .tail fun o =>
      (m, if capacity ≤ head - o.header.tail then .writer e
        else .pushing e item (.write head))
  | .write head => some <| m.access e capacity (.slot (slotIndex capacity head)) fun _ =>
      (m.modify e fun o =>
        { o with slots := Function.update o.slots (slotIndex capacity head) item },
        .pushing e item (.storeHead head))
  | .storeHead head => some <| m.access e capacity .head fun _ =>
      (m.modify e fun o =>
        { o.setHeader (fun h => { h with head := head + 1 }) with
          pushed := o.pushed ++ [item] },
        .writer e)
  | .countFull => none
  | .checkCancel => none

/-- The next step of one attempt to pop. -/
def attemptPop (capacity : UInt64) (m : ShmMem α) (e : Nat) :
    PopPc α → ShmMem α × ShmPc α
  | .loadTail => m.access e capacity .tail fun o =>
      (m, .popping e (.loadHead o.header.tail))
  | .loadHead tail => m.access e capacity .head fun o =>
      (m, if o.header.head = tail then .reader e else .popping e (.read tail))
  | .read tail => m.access e capacity (.slot (slotIndex capacity tail)) fun o =>
      (m, .popping e (.storeTail tail (o.slots (slotIndex capacity tail))))
  | .storeTail tail item => m.access e capacity .tail fun _ =>
      (m.modify e fun o =>
        { o.setHeader (fun h => { h with tail := tail + 1 }) with
          popped := o.popped ++ [item] },
        .reader e)

/-- A process that writes: `create_inner`, the attempts to push, and `drop`. -/
def writerStep (name : ShmName) (capacity : UInt64) (force : Bool) (ch : ShmChoice α)
    (m : ShmMem α) : ShmPc α → Option (ShmMem α × ShmPc α)
  | .start =>
      if capacity.toNat ≠ 2 ^ capacity.toNat.log2 then some (m, .panicked)
      else if nul ∈ name then some (m, .failed .invalidInput)
      else some (m, if force then .unlink else .shmOpen)
  | .unlink =>
      -- its answer is ignored
      some (if ch.answer.isNone then
        { m with names := Function.update m.names name none } else m,
        .shmOpen)
  | .shmOpen =>
      match ch.answer, m.names name with
      | some err, _ => some (m, .failed err)
      | none, some e => some (m, if force then .ftruncate e else .failed .alreadyExists)
      | none, none =>
          some ({ objects := m.objects ++ [.empty]
                  names := Function.update m.names name (some m.objects.length) },
            .ftruncate m.objects.length)
  | .ftruncate e =>
      match ch.answer with
      | some err => some (m, .failed err)
      | none => some (m.modify e fun o => o.resize (mappingSize capacity), .mmap e)
  | .mmap e =>
      match ch.answer with
      | some err => some (m, .failed err)
      | none => some (m, .setCapacity e)
  | .setCapacity e => some <| m.access e capacity .capacity fun _ =>
      (m.modify e fun o => o.setHeader fun h => { h with capacity := capacity },
        .setHead e)
  | .setHead e => some <| m.access e capacity .head fun _ =>
      (m.modify e fun o => o.setHeader fun h => { h with head := 0 }, .setTail e)
  | .setTail e => some <| m.access e capacity .tail fun _ =>
      (m.modify e fun o => o.setHeader fun h => { h with tail := 0 }, .setReady e)
  | .setReady e => some <| m.access e capacity .ready fun _ =>
      (m.modify e fun o => o.setHeader fun h => { h with ready := readyMagic },
        .writer e)
  | .writer e =>
      match ch.item with
      | some item => some (m, .pushing e item .loadHead)
      | none => some (m, .unlinkName)
  | .pushing e item pc => attemptPush capacity m e item pc
  | .unlinkName =>
      -- whatever the name leads to by now
      some ({ m with names := Function.update m.names name none }, .gone)
  | _ => none

/-- A process that reads: `open`, the attempts to pop, and `drop`. -/
def readerStep (name : ShmName) (capacity : UInt64) (ch : ShmChoice α) (m : ShmMem α) :
    ShmPc α → Option (ShmMem α × ShmPc α)
  | .start =>
      if capacity.toNat ≠ 2 ^ capacity.toNat.log2 then some (m, .panicked)
      else if nul ∈ name then some (m, .failed .invalidInput)
      else some (m, .lookup)
  | .lookup =>
      match ch.answer, m.names name with
      | some err, _ => some (m, .failed err)
      -- ENOENT
      | none, none => some (m, .failed (.os 2))
      | none, some e => some (m, .mapSegment e)
  | .mapSegment e =>
      match ch.answer with
      | some err => some (m, .failed err)
      | none => some (m, .loadReady e)
  | .loadReady e => some <| m.access e capacity .ready fun o =>
      (m, if o.header.ready = readyMagic then .loadCapacity e else .checkDeadline e)
  | .checkDeadline e => some (m, if ch.expired then .timedOut else .loadReady e)
  | .loadCapacity e => some <| m.access e capacity .capacity fun o =>
      (m, if o.header.capacity = capacity then .reader e
        else .mismatch capacity o.header.capacity)
  | .reader e =>
      match ch.item with
      | some _ => some (m, .popping e .loadTail)
      | none => some (m, .gone)
  | .popping e pc => some (attemptPop capacity m e pc)
  | _ => none

/-- The next step of a process, which may be that it is killed. -/
def shmNext (call : τ → ShmCall) (t : τ) (ch : ShmChoice α) (m : ShmMem α)
    (p : ShmPc α) : Option (ShmMem α × ShmPc α) :=
  if ch.kill then some (m, .gone)
  else match call t with
    | .create name capacity force => writerStep name capacity force ch m p
    | .attach name capacity => readerStep name capacity ch m p

end Steps

/-- No objects, and nobody has begun. -/
def shmStart : World (ShmMem α) (ShmPc α) τ := ⟨⟨[], fun _ => none⟩, fun _ => .start⟩

end Candlestore.Shm
