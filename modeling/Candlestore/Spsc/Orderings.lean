import Mathlib.Data.Finset.Insert
import Candlestore.Lib.WeakMemory
import Candlestore.Spsc.Ring
import Candlestore.Spsc.Segment

/-!
# The memory orderings of the ring

`Spsc.Ring` interleaves the accesses of the two sides and lets every load see the newest
store.  Here the same accesses run over release/acquire memory, with the orderings the
code names: a load may see an old cursor, and the two sides may disagree on which
cursors there are.  The slots and the `capacity` of the header are plain memory, so an
access to one of them that is not ordered after the conflicting ones is a data race.

The run starts at a segment fresh from `ftruncate`: the writer initialises the header
and raises `ready`, the reader waits for it, compares the capacity and attaches.  A ring
on the heap is the part after that.

`pushed` and `popped` are the items whose cursor store has happened; `headCount` and
`tailCount` say how many that were at the store with a given stamp.  The code reads none
of the four.
-/

namespace Candlestore.Weak

open Lib Spsc Shm

/-- The two sides of a ring. -/
inductive Role where
  | writer
  | reader
  deriving DecidableEq, Repr

instance : Fintype Role where
  elems := {.writer, .reader}
  complete t := by cases t <;> decide

/-- The atomic fields of `ShmHeader`. -/
inductive Cursor where
  | ready
  | head
  | tail
  deriving DecidableEq, Repr

/-- The plain memory of a segment. -/
inductive Field where
  | capacity
  | slot (index : Nat)
  deriving DecidableEq, Repr

theorem slot_ne_capacity (index : Nat) : Field.slot index ≠ .capacity := by
  intro h
  cases h

/-- What the field holds. -/
abbrev Field.Value (α : Type) : Field → Type
  | .capacity => UInt64
  | .slot _ => α

/-- A mapped segment over weak memory. -/
abbrev Segment (α : Type) := Memory Role Cursor Field UInt64 (Field.Value α)

/-- The orderings of the six accesses by which the two sides hear of each other.  The
loads of a side's own cursor and the two stores of zero in `create_inner` are `Relaxed`.
-/
structure Orderings where
  storeReady : StoreOrder
  loadReady : LoadOrder
  pushTail : LoadOrder
  pushHead : StoreOrder
  popHead : LoadOrder
  popTail : StoreOrder

/-- As in the source. -/
def orderings : Orderings where
  storeReady := .release
  loadReady := .acquire
  pushTail := .acquire
  pushHead := .release
  popHead := .acquire
  popTail := .release

/-- The writer from the mapping of its segment on. -/
inductive WriterPc (α : Type) where
  | setCapacity
  | setHead
  | setTail
  | setReady
  | idle
  | loadHead (item : α)
  | loadTail (item : α) (head : UInt64)
  | write (item : α) (head : UInt64)
  | storeHead (item : α) (head : UInt64)

/-- The reader from the mapping of the segment on. -/
inductive ReaderPc (α : Type) where
  | awaitReady
  | readCapacity
  | failed
  | idle
  | loadTail
  | loadHead (tail : UInt64)
  | read (tail : UInt64)
  | storeTail (tail : UInt64) (item : α)

/-- An attempt that returned `false` or `None`: how many items this side had put through,
and how many it had heard of from the other side. -/
inductive Refusal where
  | full (pushed heard : Nat)
  | empty (popped heard : Nat)
  deriving DecidableEq, Repr

/-- The segment, where the two sides are in their code, and what has gone through. -/
structure SharedRing (α : Type) where
  memory : Segment α
  writer : WriterPc α
  reader : ReaderPc α
  pushed : List α
  popped : List α
  refusals : List Refusal
  headCount : Nat → Nat
  tailCount : Nat → Nat

variable {α : Type}

/-- One access of `create_inner` or `try_push`.  `stamp` is the message a load reads or
the place a store takes. -/
def writerStep (o : Orderings) (c : Capacity) (s : SharedRing α) (stamp : Nat) :
    Option (SharedRing α) :=
  match s.writer with
  | .setCapacity =>
      some { s with
        memory := s.memory.write .writer .capacity c.word
        writer := .setHead }
  | .setHead =>
      (s.memory.store .relaxed .writer .head stamp 0).map fun m =>
        { s with
          memory := m
          writer := .setTail
          headCount := Function.update s.headCount stamp 0 }
  | .setTail =>
      (s.memory.store .relaxed .writer .tail stamp 0).map fun m =>
        { s with
          memory := m
          writer := .setReady
          tailCount := Function.update s.tailCount stamp 0 }
  | .setReady =>
      (s.memory.store o.storeReady .writer .ready stamp readyMagic).map fun m =>
        { s with memory := m, writer := .idle }
  | .idle => none
  | .loadHead item =>
      (s.memory.load .relaxed .writer .head stamp).map fun r =>
        { s with memory := r.2, writer := .loadTail item r.1 }
  | .loadTail item head =>
      (s.memory.load o.pushTail .writer .tail stamp).map fun r =>
        if c.word ≤ head - r.1 then
          { s with
            memory := r.2
            writer := .idle
            refusals := s.refusals ++ [.full s.pushed.length (s.tailCount stamp)] }
        else { s with memory := r.2, writer := .write item head }
  | .write item head =>
      some { s with
        memory := s.memory.write .writer (.slot (c.slot head).val) item
        writer := .storeHead item head }
  | .storeHead item head =>
      (s.memory.store o.pushHead .writer .head stamp (head + 1)).map fun m =>
        { s with
          memory := m
          writer := .idle
          pushed := s.pushed ++ [item]
          headCount := Function.update s.headCount stamp (s.pushed.length + 1) }

/-- One access of `open`, called with the capacity `requested`, or of `try_pop`. -/
def readerStep (o : Orderings) (requested : UInt64) (s : SharedRing α) (stamp : Nat) :
    Option (SharedRing α) :=
  match s.reader with
  | .awaitReady =>
      (s.memory.load o.loadReady .reader .ready stamp).map fun r =>
        { s with
          memory := r.2
          reader := if r.1 = readyMagic then .readCapacity else .awaitReady }
  | .readCapacity =>
      let r := s.memory.read .reader .capacity
      some { s with
        memory := r.2
        reader := if (r.1 : UInt64) = requested then .idle else .failed }
  | .failed => none
  | .idle => none
  | .loadTail =>
      (s.memory.load .relaxed .reader .tail stamp).map fun r =>
        { s with memory := r.2, reader := .loadHead r.1 }
  | .loadHead tail =>
      (s.memory.load o.popHead .reader .head stamp).map fun r =>
        if r.1 = tail then
          { s with
            memory := r.2
            reader := .idle
            refusals := s.refusals ++ [.empty s.popped.length (s.headCount stamp)] }
        else { s with memory := r.2, reader := .read tail }
  | .read tail =>
      let r := s.memory.read .reader (.slot (tail &&& (requested - 1)).toNat)
      some { s with memory := r.2, reader := .storeTail tail r.1 }
  | .storeTail tail item =>
      (s.memory.store o.popTail .reader .tail stamp (tail + 1)).map fun m =>
        { s with
          memory := m
          reader := .idle
          popped := s.popped ++ [item]
          tailCount := Function.update s.tailCount stamp (s.popped.length + 1) }

/-- An access of a side, or a call that begins.  `timeout` is the deadline of `open`. -/
inductive Act (α : Type) where
  | callPush (item : α)
  | writer (stamp : Nat)
  | callPop
  | timeout
  | reader (stamp : Nat)

/-- One such step, with the orderings `o`. -/
def ringStep (o : Orderings) (c : Capacity) (requested : UInt64) (s : SharedRing α) :
    Act α → Option (SharedRing α)
  | .callPush item =>
      match s.writer with
      | .idle => some { s with writer := .loadHead item }
      | _ => none
  | .writer stamp => writerStep o c s stamp
  | .callPop =>
      match s.reader with
      | .idle => some { s with reader := .loadTail }
      | _ => none
  | .timeout =>
      match s.reader with
      | .awaitReady => some { s with reader := .failed }
      | _ => none
  | .reader stamp => readerStep o requested s stamp

/-- A segment fresh from `ftruncate`, with whatever its zeroed slots read as. -/
def freshSegment (zero : α) : SharedRing α where
  memory := .fresh 0 .writer fun n =>
    match n with
    | .capacity => (0 : UInt64)
    | .slot _ => zero
  writer := .setCapacity
  reader := .awaitReady
  pushed := []
  popped := []
  refusals := []
  headCount _ := 0
  tailCount _ := 0

/-! ## The invariant -/

/-- Nothing has been written to the header. -/
def WriterPc.blank : WriterPc α → Bool
  | .setCapacity => true
  | _ => false

/-- `ready` has not been stored. -/
def WriterPc.creating : WriterPc α → Bool
  | .setCapacity | .setHead | .setTail | .setReady => true
  | _ => false

theorem WriterPc.blank_eq_false {pc : WriterPc α} (h : pc.creating = false) :
    pc.blank = false := by
  cases pc <;> first | rfl | cases h

/-- The item of a push that has written its slot. -/
def WriterPc.inHand : WriterPc α → List α
  | .storeHead item _ => [item]
  | _ => []

/-- The plain accesses of the writer, with `pushed` items through. -/
def WriterPc.accesses (pushed : Nat) : WriterPc α → Nat
  | .setCapacity => 0
  | .storeHead _ _ => pushed + 2
  | _ => pushed + 1

/-- The locals of a push, against what the writer knows. -/
def WriterPc.Ok (pushed room : Nat) : WriterPc α → Prop
  | .loadTail _ head => head = UInt64.ofNat pushed
  | .write _ head | .storeHead _ head => head = UInt64.ofNat pushed ∧ pushed < room
  | _ => True

/-- The reader has seen `ready`. -/
def ReaderPc.opened : ReaderPc α → Bool
  | .awaitReady | .failed => false
  | _ => true

/-- The reader has found its own capacity in the header. -/
def ReaderPc.attached : ReaderPc α → Bool
  | .awaitReady | .readCapacity | .failed => false
  | _ => true

theorem ReaderPc.opened_of_attached {pc : ReaderPc α} (h : pc.attached = true) :
    pc.opened = true := by
  cases pc <;> first | rfl | cases h

/-- `open` has returned an error. -/
def ReaderPc.hasFailed : ReaderPc α → Bool
  | .failed => true
  | _ => false

theorem ReaderPc.not_failed_of_opened {pc : ReaderPc α} (h : pc.opened = true) :
    pc.hasFailed = false := by
  cases pc <;> first | rfl | cases h

/-- How many slots the reader has read, with `popped` items through. -/
def ReaderPc.taken (popped : Nat) : ReaderPc α → Nat
  | .storeTail _ _ => popped + 1
  | _ => popped

/-- The plain accesses of a reader that has not failed. -/
def ReaderPc.accesses (popped : Nat) : ReaderPc α → Nat
  | .awaitReady | .readCapacity => 0
  | .storeTail _ _ => popped + 2
  | _ => popped + 1

/-- The locals of a pop, against what the reader knows. -/
def ReaderPc.Ok (popped filled : Nat) (pushed : List α) : ReaderPc α → Prop
  | .loadHead tail => tail = UInt64.ofNat popped
  | .read tail => tail = UInt64.ofNat popped ∧ popped < filled
  | .storeTail tail item =>
      tail = UInt64.ofNat popped ∧ popped < filled ∧ pushed[popped]? = some item
  | _ => True

/-- The plain accesses a cursor stands for: one for the header, and one for each item. -/
def accessesFor (count : Nat) : Nat := if count = 0 then 0 else count + 1

theorem accessesFor_le {count n : Nat} (h : count + 1 ≤ n) : accessesFor count ≤ n := by
  unfold accessesFor
  split
  · exact Nat.zero_le n
  · exact h

theorem le_of_accessesFor_le {count n k : Nat} (h : accessesFor count ≤ n)
    (hk : k < count) : k + 2 ≤ n := by
  unfold accessesFor at h
  rw [if_neg (by omega)] at h
  omega

/-- What the writer has last heard of `tail`. -/
def heardTail (m : Segment α) (tailCount : Nat → Nat) : Nat :=
  tailCount ((m.views .writer).seen .tail)

/-- What the reader has last heard of `head`. -/
def heardHead (m : Segment α) (headCount : Nat → Nat) : Nat :=
  headCount ((m.views .reader).seen .head)

/-- A cursor counts what its owner has put through, and who has seen it knows of the
accesses that took. -/
structure CursorInv (m : Segment α) (l : Cursor) (owner : Role) (count : Nat → Nat)
    (total : Nat) : Prop where
  counter : m.Counter l UInt64.ofNat count total
  zero : count 0 = 0
  accounts : m.Views (Memory.Accounts l owner (accessesFor ∘ count))

/-- No race so far, and both cursors count their side. -/
structure MemoryInv (m : Segment α) (pushed popped : Nat)
    (headCount tailCount : Nat → Nat) : Prop where
  wellFormed : m.WellFormed
  notRaced : m.raced = false
  bot : m.Reached .bot
  head : CursorInv m .head .writer headCount pushed
  tail : CursorInv m .tail .reader tailCount popped

/-- The writer has seen its own cursor last, and leaves room for
what it has not heard of. -/
structure WriterInv (c : Capacity) (m : Segment α) (pc : WriterPc α) (pushed : Nat)
    (headCount tailCount : Nat → Nat) : Prop where
  newest : m.Newest .writer .head
  total : headCount ((m.views .writer).seen .head) = pushed
  room : pushed ≤ heardTail m tailCount + c.size
  knows : (m.views .writer).knows .writer = pc.accesses pushed
  ok : pc.Ok pushed (heardTail m tailCount + c.size)

/-- The reader has seen its own cursor last, and takes only what it has heard of. -/
structure ReaderInv (c : Capacity) (requested : UInt64) (m : Segment α) (pc : ReaderPc α)
    (pushed : List α) (popped : Nat) (headCount tailCount : Nat → Nat) : Prop where
  newest : pc.opened = true → m.Newest .reader .tail
  total : pc.opened = true → tailCount ((m.views .reader).seen .tail) = popped
  header : pc.opened = true → 1 ≤ (m.views .reader).knows .writer
  heard : popped ≤ heardHead m headCount
  knows : pc.hasFailed = false → (m.views .reader).knows .reader = pc.accesses popped
  agrees : pc.attached = true → requested = c.word
  nothing : pc.attached = false → popped = 0
  ok : pc.Ok popped (heardHead m headCount) pushed

/-- What the plain memory holds, and who accessed it last. -/
structure PlainInv (c : Capacity) (plain : (n : Field) → Plain Role (Field.Value α n))
    (blank : Bool) (written : List α) (popped taken : Nat) : Prop where
  owner : ∀ n, (plain n).writer = .writer
  unread : blank = true → (plain .capacity).read .reader = 0
  capacity : blank = false → (plain .capacity).value = c.word ∧
    (plain .capacity).written ≤ 1
  content : ∀ k, popped ≤ k → k < written.length →
    written[k]? = some (plain (.slot (k % c.size))).value ∧
      (plain (.slot (k % c.size))).written = k + 2
  reads : ∀ i, (plain (.slot i)).read .reader = 0 ∨
    ∃ j, j < taken ∧ i = j % c.size ∧ (plain (.slot i)).read .reader = j + 2

/-- From the mapping to the attachment. -/
structure HandshakeInv (m : Segment α) (creating opened attached : Bool) (pushed : Nat) :
    Prop where
  nothing : creating = true → pushed = 0
  newest : creating = true → m.Newest .writer .tail
  unready : creating = true → ∀ {stamp msg}, m.messages .ready stamp = some msg →
    msg.value ≠ readyMagic
  created : opened = true → creating = false
  published : ∀ {stamp msg}, m.messages .ready stamp = some msg →
    msg.value = readyMagic →
    1 ≤ msg.view.knows .writer ∧ (attached = false →
      ∀ {stamp' msg'}, m.messages .tail stamp' = some msg' →
      stamp' ≤ msg.view.seen .tail)

/-- A refused attempt had heard of so much from the other side that there was no room, or
nothing to take. -/
def Refusal.Sound (c : Capacity) : Refusal → Prop
  | .full pushed heard => pushed = heard + c.size
  | .empty popped heard => heard = popped

/-- The invariant over all interleavings and all choices of the loads. -/
structure RingInv (c : Capacity) (requested : UInt64) (s : SharedRing α) : Prop where
  memory : MemoryInv s.memory s.pushed.length s.popped.length s.headCount s.tailCount
  writer : WriterInv c s.memory s.writer s.pushed.length s.headCount s.tailCount
  reader : ReaderInv c requested s.memory s.reader s.pushed s.popped.length s.headCount
    s.tailCount
  plain : PlainInv c s.memory.plain s.writer.blank (s.pushed ++ s.writer.inHand)
    s.popped.length (s.reader.taken s.popped.length)
  handshake : HandshakeInv s.memory s.writer.creating s.reader.opened s.reader.attached
    s.pushed.length
  inOrder : s.popped <+: s.pushed
  refusals : ∀ r ∈ s.refusals, r.Sound c

/-! ## What the accesses keep -/

section Frames

variable {c : Capacity} {requested : UInt64} {m m' : Segment α} {pushed popped : Nat}
  {headCount tailCount : Nat → Nat}

namespace CursorInv

variable {l : Cursor} {owner : Role} {count : Nat → Nat} {total : Nat}

theorem learn (h : CursorInv m l owner count total) {t : Role} {view : View Role Cursor}
    (hview : Memory.Accounts l owner (accessesFor ∘ count) view) :
    CursorInv (m.learn t view) l owner count total :=
  ⟨h.counter.congr fun _ => rfl, h.zero, h.accounts.learn hview⟩

theorem hear (h : CursorInv m l owner count total) {t : Role} {l' : Cursor} {stamp : Nat}
    {msg : Message Role Cursor UInt64} (hmsg : m.messages l' stamp = some msg) :
    CursorInv (m.learn t ((m.views t).join msg.view)) l owner count total :=
  h.learn ((h.accounts.thread t).join (h.accounts.message hmsg))

/-- The owner of a cursor, who has made the accesses that the new count stands for. -/
theorem store (h : CursorInv m l owner count total) (hm : m.WellFormed) {o : StoreOrder}
    {t : Role} {stamp n : Nat} (hst : Memory.Stored m m' o t l stamp (UInt64.ofNat n))
    (hnew : m.Newest t l) (hn : total ≤ n)
    (hthread : accessesFor n ≤ (m.views t).knows owner)
    (hmessage : accessesFor n ≤ (o.gives (m.views t) l stamp).knows owner) :
    CursorInv m' l owner (Function.update count stamp n) n where
  counter := h.counter.store hst hnew hn
  zero := by
    have hpos : 0 < stamp := Nat.zero_lt_of_lt hst.above
    rw [Function.update_of_ne hpos.ne, h.zero]
  accounts := by
    rw [Function.comp_update]
    exact hst.accounts hm h.accounts hthread hmessage

theorem store_of_ne (h : CursorInv m l owner count total) (hm : m.WellFormed)
    {o : StoreOrder} {t : Role} {l' : Cursor} {stamp : Nat} {value : UInt64}
    (hst : Memory.Stored m m' o t l' stamp value) (hne : l ≠ l') :
    CursorInv m' l owner count total where
  counter := h.counter.congr fun _ => hst.others fun heq => hne heq.1
  zero := h.zero
  accounts := by
    refine hst.accounts_of_ne hm h.accounts hne ?_
    show accessesFor (count 0) = 0
    rw [h.zero]
    rfl

end CursorInv

namespace MemoryInv

theorem hear (h : MemoryInv m pushed popped headCount tailCount) {t : Role} {l : Cursor}
    {stamp : Nat} {msg : Message Role Cursor UInt64}
    (hmsg : m.messages l stamp = some msg) :
    MemoryInv (m.learn t ((m.views t).join msg.view)) pushed popped headCount
      tailCount :=
  ⟨h.wellFormed.join hmsg, h.notRaced, h.bot, h.head.hear hmsg, h.tail.hear hmsg⟩

theorem read (h : MemoryInv m pushed popped headCount tailCount) {t : Role} {n : Field}
    (hknown : m.knowsWrite t n = true) :
    MemoryInv (m.read t n).2 pushed popped headCount tailCount := by
  have hhead := h.head.learn (t := t) ((h.head.accounts.thread t).tick t)
  have htail := h.tail.learn (t := t) ((h.tail.accounts.thread t).tick t)
  exact ⟨h.wellFormed.read, (Memory.read_raced hknown).trans h.notRaced, h.bot,
    ⟨hhead.counter.congr fun _ => rfl, hhead.zero, hhead.accounts.thread,
      hhead.accounts.message⟩, ⟨htail.counter.congr fun _ => rfl, htail.zero,
      htail.accounts.thread, htail.accounts.message⟩⟩

theorem write (h : MemoryInv m pushed popped headCount tailCount) {t : Role} {n : Field}
    (value : Field.Value α n) (hwrite : m.knowsWrite t n = true)
    (hreads : m.knowsReads t n = true) :
    MemoryInv (m.write t n value) pushed popped headCount tailCount := by
  have hhead := h.head.learn (t := t) ((h.head.accounts.thread t).tick t)
  have htail := h.tail.learn (t := t) ((h.tail.accounts.thread t).tick t)
  exact ⟨h.wellFormed.write value, (Memory.write_raced hwrite hreads).trans h.notRaced,
    h.bot, ⟨hhead.counter.congr fun _ => rfl, hhead.zero, hhead.accounts.thread,
      hhead.accounts.message⟩, ⟨htail.counter.congr fun _ => rfl, htail.zero,
      htail.accounts.thread, htail.accounts.message⟩⟩

theorem store (h : MemoryInv m pushed popped headCount tailCount) {o : StoreOrder}
    {t : Role} {l : Cursor} {stamp : Nat} {value : UInt64}
    (hst : Memory.Stored m m' o t l stamp value) {pushed' popped' : Nat}
    {headCount' tailCount' : Nat → Nat}
    (hhead : CursorInv m' .head .writer headCount' pushed')
    (htail : CursorInv m' .tail .reader tailCount' popped') :
    MemoryInv m' pushed' popped' headCount' tailCount' :=
  ⟨hst.wellFormed h.wellFormed h.bot, hst.raced.trans h.notRaced,
    fun l => hst.isSome_mono (h.bot l), hhead, htail⟩

end MemoryInv

/-- The reader's accesses leave the writer as it is. -/
theorem WriterInv.congr {pc : WriterPc α}
    (h : WriterInv c m pc pushed headCount tailCount) {tailCount' : Nat → Nat}
    (hview : m'.views .writer = m.views .writer)
    (hmessages : m'.messages .head = m.messages .head)
    (hheard : heardTail m' tailCount' = heardTail m tailCount) :
    WriterInv c m' pc pushed headCount tailCount' where
  newest _ _ hmsg := by
    rw [hview]
    exact h.newest.le (hmessages ▸ hmsg)
  total := hview ▸ h.total
  room := hheard ▸ h.room
  knows := hview ▸ h.knows
  ok := hheard ▸ h.ok

/-- The writer's accesses leave the reader as it is. -/
theorem ReaderInv.congr {pc : ReaderPc α} {items items' : List α}
    (h : ReaderInv c requested m pc items popped headCount tailCount)
    {headCount' tailCount' : Nat → Nat} (hview : m'.views .reader = m.views .reader)
    (hmessages : pc.opened = true → m'.messages .tail = m.messages .tail)
    (hheard : heardHead m' headCount' = heardHead m headCount)
    (htail : pc.opened = true → tailCount' = tailCount) (hitems : items <+: items') :
    ReaderInv c requested m' pc items' popped headCount' tailCount' where
  newest hopen _ _ hmsg := by
    rw [hview]
    exact (h.newest hopen).le (hmessages hopen ▸ hmsg)
  total hopen := by
    rw [hview, htail hopen]
    exact h.total hopen
  header hopen := hview ▸ h.header hopen
  heard := hheard ▸ h.heard
  knows := hview ▸ h.knows
  agrees := h.agrees
  nothing := h.nothing
  ok := by
    rw [hheard]
    have hok := h.ok
    cases pc with
    | storeTail tail item =>
        obtain ⟨htail, hlt, hget⟩ := hok
        obtain ⟨more, rfl⟩ := hitems
        refine ⟨htail, hlt, ?_⟩
        rw [List.getElem?_append_left (List.getElem?_eq_some_iff.1 hget).1]
        exact hget
    | _ => exact hok

theorem HandshakeInv.congr {creating opened attached : Bool}
    (h : HandshakeInv m creating opened attached pushed)
    (hview : m'.views .writer = m.views .writer) (hmessages : m'.messages = m.messages)
    {opened' attached' : Bool} (hopen : opened' = true → creating = false)
    (hattach : attached' = false → attached = false) :
    HandshakeInv m' creating opened' attached' pushed where
  nothing := h.nothing
  newest hcreating _ _ hmsg := by
    rw [hview]
    exact (h.newest hcreating).le (hmessages ▸ hmsg)
  unready hcreating := fun hmsg => h.unready hcreating (hmessages ▸ hmsg)
  created := hopen
  published hmsg hmagic := by
    rw [hmessages] at hmsg ⊢
    obtain ⟨hknows, hall⟩ := h.published hmsg hmagic
    exact ⟨hknows, fun hattached => hall (hattach hattached)⟩

/-- Once the header is written only `ready` and `tail` matter. -/
theorem HandshakeInv.running {creating opened attached : Bool}
    (h : HandshakeInv m creating opened attached pushed) {pushed' : Nat}
    (hready : m'.messages .ready = m.messages .ready)
    (htail : m'.messages .tail = m.messages .tail) :
    HandshakeInv m' false opened attached pushed' where
  nothing hfalse := by cases hfalse
  newest hfalse := by cases hfalse
  unready hfalse := by cases hfalse
  created _ := rfl
  published hmsg hmagic := by
    rw [hready] at hmsg
    obtain ⟨hknows, hall⟩ := h.published hmsg hmagic
    refine ⟨hknows, fun hattached stamp' msg' hmsg' => ?_⟩
    rw [htail] at hmsg'
    exact hall hattached hmsg'

end Frames

/-! ## The writer -/

section Writer

variable {c : Capacity} {requested : UInt64} {s : SharedRing α} {m : Segment α}
  {stamp : Nat}

theorem knowsWrite_writer (h : RingInv c requested s) (n : Field) :
    s.memory.knowsWrite .writer n = true := by
  have hwrote := h.memory.wellFormed.wrote n
  rw [h.plain.owner] at hwrote
  unfold Memory.knowsWrite
  rw [h.plain.owner]
  exact decide_eq_true hwrote

theorem knowsReads_writer (h : RingInv c requested s) {n : Field}
    (hread : (s.memory.plain n).read .reader ≤ (s.memory.views .writer).knows .reader) :
    s.memory.knowsReads .writer n = true := by
  refine decide_eq_true fun u => ?_
  cases u with
  | writer => exact h.memory.wellFormed.hasRead n .writer
  | reader => exact hread

/-- The writer has made one plain access more. -/
theorem WriterInv.accessed {pc pc' : WriterPc α} {pushed : Nat}
    {headCount tailCount : Nat → Nat} {n : Field} {value : Field.Value α n}
    (h : WriterInv c m pc pushed headCount tailCount)
    (hknows : pc'.accesses pushed = pc.accesses pushed + 1)
    (hok : pc'.Ok pushed (heardTail m tailCount + c.size)) :
    WriterInv c (m.write .writer n value) pc' pushed headCount tailCount := by
  have hheard : heardTail (m.write .writer n value) tailCount =
      heardTail m tailCount := by
    unfold heardTail
    rw [Memory.write_views_self]
    rfl
  refine ⟨fun _ _ hmsg => ?_, ?_, hheard ▸ h.room, ?_, hheard ▸ hok⟩
  · rw [Memory.write_views_self]
    exact h.newest.le hmsg
  · rw [Memory.write_views_self]
    exact h.total
  · rw [Memory.write_views_self, View.tick_knows_self, h.knows, hknows]

/-- The writer has moved `head` on to `n`. -/
theorem WriterInv.storedHead {pc pc' : WriterPc α} {pushed n : Nat}
    {headCount tailCount : Nat → Nat} {m' : Segment α} {o : StoreOrder} {value : UInt64}
    (h : WriterInv c m pc pushed headCount tailCount)
    (hst : Memory.Stored m m' o .writer .head stamp value)
    (hroom : n ≤ heardTail m tailCount + c.size)
    (hknows : pc'.accesses n = pc.accesses pushed)
    (hok : pc'.Ok n (heardTail m tailCount + c.size)) :
    WriterInv c m' pc' n (Function.update headCount stamp n) tailCount := by
  have hheard : heardTail m' tailCount = heardTail m tailCount := by
    unfold heardTail
    rw [hst.view, View.raise_seen_of_ne _ (by decide)]
  refine ⟨hst.newest h.newest fun _ => rfl, ?_, hheard ▸ hroom, ?_, hheard ▸ hok⟩
  · rw [hst.view, View.raise_seen, Function.update_self]
  · rw [hst.knows_eq, h.knows, hknows]

/-- What the reader knows is left alone by a store of the writer, to `tail` only before
the segment is ready. -/
theorem ReaderInv.stored {pc : ReaderPc α} {items items' : List α} {popped : Nat}
    {headCount headCount' tailCount tailCount' : Nat → Nat} {m' : Segment α}
    {o : StoreOrder} {l : Cursor} {value : UInt64}
    (h : ReaderInv c requested m pc items popped headCount tailCount)
    (hst : Memory.Stored m m' o .writer l stamp value)
    (htail : pc.opened = true → l ≠ .tail ∧ tailCount' = tailCount)
    (hhead : headCount' ((m.views .reader).seen .head) =
      headCount ((m.views .reader).seen .head))
    (hitems : items <+: items') :
    ReaderInv c requested m' pc items' popped headCount' tailCount' := by
  have hview := hst.views (u := .reader) (by decide)
  refine h.congr hview (fun hopen => hst.messages_of_ne (htail hopen).1.symm) ?_
    (fun hopen => (htail hopen).2) hitems
  unfold heardHead
  rw [hview, hhead]

theorem ReaderInv.afterWrite {pc : ReaderPc α} {items : List α} {popped : Nat}
    {headCount tailCount : Nat → Nat} {n : Field} {value : Field.Value α n}
    (h : ReaderInv c requested m pc items popped headCount tailCount) :
    ReaderInv c requested (m.write .writer n value) pc items popped headCount
      tailCount := by
  have hview : (m.write .writer n value).views .reader = m.views .reader :=
    Memory.write_views_of_ne (by decide) value
  refine h.congr hview (fun _ => rfl) ?_ (fun _ => rfl) (List.prefix_refl _)
  unfold heardHead
  rw [hview]

theorem RingInv.setCapacity (h : RingInv c requested s) (hpc : s.writer = .setCapacity) :
    RingInv c requested
      { s with
        memory := s.memory.write .writer .capacity c.word
        writer := .setHead } := by
  have hplain := h.plain
  have hwriter := h.writer
  have hhand := h.handshake
  rw [hpc] at hplain hwriter hhand
  have hzero := hhand.nothing rfl
  have hreads := knowsReads_writer h (n := .capacity) (hplain.unread rfl ▸ Nat.zero_le _)
  refine
    { memory := h.memory.write c.word (knowsWrite_writer h _) hreads
      writer := hwriter.accessed ?_ trivial
      reader := h.reader.afterWrite
      plain := ⟨?_, fun hblank => ?_, fun _ => ?_, fun k hlo hhi => ?_, fun i => ?_⟩
      handshake := ⟨hhand.nothing, ?_, hhand.unready, hhand.created, hhand.published⟩
      inOrder := h.inOrder
      refusals := h.refusals }
  · show s.pushed.length + 1 = 0 + 1
    omega
  · intro n
    by_cases hn : n = .capacity
    · subst hn
      rw [Memory.write_plain_self]
    · rw [Memory.write_plain_of_ne hn]
      exact hplain.owner n
  · cases hblank
  · rw [Memory.write_plain_self]
    refine ⟨rfl, ?_⟩
    show (s.memory.views .writer).knows .writer + 1 ≤ 1
    rw [hwriter.knows]
    exact le_rfl
  · rw [Memory.write_plain_of_ne (slot_ne_capacity _)]
    exact hplain.content k hlo hhi
  · rw [Memory.write_plain_of_ne (slot_ne_capacity _)]
    exact hplain.reads i
  · intro _ stamp msg hmsg
    rw [Memory.write_views_self]
    exact (hhand.newest rfl).le hmsg

theorem RingInv.setHead (h : RingInv c requested s) (hpc : s.writer = .setHead)
    (hst : Memory.Stored s.memory m .relaxed .writer .head stamp 0) :
    RingInv c requested
      { s with
        memory := m
        writer := .setTail
        headCount := Function.update s.headCount stamp 0 } := by
  have hplain := h.plain
  have hwriter := h.writer
  have hhand := h.handshake
  rw [hpc] at hplain hwriter hhand
  have hzero := hhand.nothing rfl
  have hwf := h.memory.wellFormed
  have hhead := h.memory.head.store hwf (n := 0) hst hwriter.newest hzero.le
    (Nat.zero_le _) (Nat.zero_le _)
  have hstored : WriterInv c m .setTail 0 (Function.update s.headCount stamp 0)
      s.tailCount :=
    hwriter.storedHead hst (Nat.zero_le _) (by rw [hzero]; rfl) trivial
  refine
    { memory := h.memory.store hst ?_ (h.memory.tail.store_of_ne hwf hst (by decide))
      writer := ?_
      reader := h.reader.stored hst (fun _ => ⟨by decide, rfl⟩)
        (Function.update_of_ne (hst.seen_ne (hwf.reached.thread .reader)) _ _)
        (List.prefix_refl _)
      plain := hst.plain ▸ hplain
      handshake := ⟨fun _ => hzero,
        fun _ => hst.newest (hhand.newest rfl) fun hl => (by cases hl),
        fun _ => ?_, hhand.created, ?_⟩
      inOrder := h.inOrder
      refusals := h.refusals }
  · show CursorInv m .head .writer _ s.pushed.length
    rw [hzero]
    exact hhead
  · show WriterInv c m .setTail s.pushed.length _ _
    rw [hzero]
    exact hstored
  · rw [hst.messages_of_ne (by decide)]
    exact hhand.unready rfl
  · rw [hst.messages_of_ne (by decide)]
    exact fun hmsg hmagic => absurd hmagic (hhand.unready rfl hmsg)

theorem RingInv.setTail (h : RingInv c requested s) (hpc : s.writer = .setTail)
    (hst : Memory.Stored s.memory m .relaxed .writer .tail stamp 0) :
    RingInv c requested
      { s with
        memory := m
        writer := .setReady
        tailCount := Function.update s.tailCount stamp 0 } := by
  have hplain := h.plain
  have hwriter := h.writer
  have hhand := h.handshake
  rw [hpc] at hplain hwriter hhand
  have hzero := hhand.nothing rfl
  have hclosed : s.reader.opened ≠ true := fun hopen => by cases hhand.created hopen
  have hnone : s.popped.length = 0 := by
    refine h.reader.nothing (Bool.eq_false_iff.2 fun hattached => ?_)
    exact hclosed (ReaderPc.opened_of_attached hattached)
  have hwf := h.memory.wellFormed
  have hnewest := hhand.newest rfl
  have htail := h.memory.tail.store hwf (n := 0) hst hnewest hnone.le (Nat.zero_le _)
    (Nat.zero_le _)
  refine
    { memory := h.memory.store hst (h.memory.head.store_of_ne hwf hst (by decide)) ?_
      writer := ⟨hst.newest hwriter.newest fun hl => (by cases hl), ?_,
        hzero.le.trans (Nat.zero_le _), ?_, trivial⟩
      reader := h.reader.stored hst (fun hopen => absurd hopen hclosed) rfl
        (List.prefix_refl _)
      plain := hst.plain ▸ hplain
      handshake := ⟨fun _ => hzero,
        fun _ => hst.newest hnewest fun _ => rfl, fun _ => ?_, hhand.created, ?_⟩
      inOrder := h.inOrder
      refusals := h.refusals }
  · show CursorInv m .tail .reader _ s.popped.length
    rw [hnone]
    exact htail
  · rw [hst.view, View.raise_seen_of_ne _ (by decide)]
    exact hwriter.total
  · rw [hst.knows_eq]
    exact hwriter.knows
  · rw [hst.messages_of_ne (by decide)]
    exact hhand.unready rfl
  · rw [hst.messages_of_ne (by decide)]
    exact fun hmsg hmagic => absurd hmagic (hhand.unready rfl hmsg)

theorem RingInv.setReady (h : RingInv c requested s) (hpc : s.writer = .setReady)
    (hst : Memory.Stored s.memory m .release .writer .ready stamp readyMagic) :
    RingInv c requested { s with memory := m, writer := .idle } := by
  have hplain := h.plain
  have hwriter := h.writer
  have hhand := h.handshake
  rw [hpc] at hplain hwriter hhand
  have hwf := h.memory.wellFormed
  have hheard : heardTail m s.tailCount = heardTail s.memory s.tailCount := by
    unfold heardTail
    rw [hst.view, View.raise_seen_of_ne _ (by decide)]
  refine
    { memory := h.memory.store hst (h.memory.head.store_of_ne hwf hst (by decide))
        (h.memory.tail.store_of_ne hwf hst (by decide))
      writer := ⟨hst.newest hwriter.newest fun hl => (by cases hl), ?_,
        hheard ▸ hwriter.room, ?_,
        trivial⟩
      reader := h.reader.stored hst (fun _ => ⟨by decide, rfl⟩) rfl (List.prefix_refl _)
      plain := hst.plain ▸ hplain
      handshake := ⟨fun hfalse => (by cases hfalse), fun hfalse => (by cases hfalse),
        fun hfalse => (by cases hfalse), fun _ => rfl, fun hmsg hmagic => ?_⟩
      inOrder := h.inOrder
      refusals := h.refusals }
  · rw [hst.view, View.raise_seen_of_ne _ (by decide)]
    exact hwriter.total
  · rw [hst.knows_eq]
    exact hwriter.knows
  · have htail : m.messages .tail = s.memory.messages .tail :=
      hst.messages_of_ne (by decide)
    rw [htail]
    rcases hst.cases hmsg with ⟨-, -, rfl⟩ | hold
    · refine ⟨?_, fun _ stamp' msg' hmsg' => ?_⟩
      · show 1 ≤ (s.memory.views .writer).knows .writer
        rw [hwriter.knows]
        exact Nat.le_add_left 1 _
      · show stamp' ≤ ((s.memory.views .writer).raise .ready stamp).seen .tail
        rw [View.raise_seen_of_ne _ (by decide)]
        exact (hhand.newest rfl).le hmsg'
    · exact absurd hmagic (hhand.unready rfl hold)

theorem RingInv.loadHead (h : RingInv c requested s) {item : α}
    (hpc : s.writer = .loadHead item) {head : UInt64}
    (hload : s.memory.load .relaxed .writer .head stamp = some (head, m)) :
    RingInv c requested { s with memory := m, writer := .loadTail item head } := by
  have hplain := h.plain
  have hwriter := h.writer
  have hhand := h.handshake
  rw [hpc] at hplain hwriter hhand
  obtain ⟨rfl, rfl, msg, hmsg, rfl⟩ := Memory.load_relaxed_newest hwriter.newest hload
  have hvalue := h.memory.head.counter.value hmsg
  rw [hwriter.total] at hvalue
  exact
    { memory := h.memory
      writer := ⟨hwriter.newest, hwriter.total, hwriter.room, hwriter.knows, hvalue⟩
      reader := h.reader
      plain := hplain
      handshake := hhand
      inOrder := h.inOrder
      refusals := h.refusals }

/-- The reader is left alone by what the writer hears. -/
theorem ReaderInv.writerHears {pc : ReaderPc α} {items : List α} {popped : Nat}
    {headCount tailCount : Nat → Nat}
    (h : ReaderInv c requested m pc items popped headCount tailCount)
    (view : View Role Cursor) :
    ReaderInv c requested (m.learn .writer view) pc items popped headCount
      tailCount := by
  have hview : (m.learn .writer view).views .reader = m.views .reader :=
    Memory.learn_views_of_ne (by decide) view
  refine h.congr hview (fun _ => rfl) ?_ (fun _ => rfl) (List.prefix_refl _)
  unfold heardHead
  rw [hview]

/-- What hearing of `tail` does to the writer. -/
theorem WriterInv.hear {pc pc' : WriterPc α} {pushed popped : Nat}
    {headCount tailCount : Nat → Nat} {msg : Message Role Cursor UInt64}
    (h : WriterInv c m pc pushed headCount tailCount)
    (hm : MemoryInv m pushed popped headCount tailCount)
    (hmsg : m.messages .tail stamp = some msg)
    (hle : (m.views .writer).seen .tail ≤ stamp)
    (hcarried : msg.view.seen .tail = stamp)
    (hknows : pc'.accesses pushed = pc.accesses pushed)
    (hok : pc'.Ok pushed (tailCount stamp + c.size)) :
    WriterInv c (m.learn .writer ((m.views .writer).join msg.view)) pc' pushed headCount
      tailCount := by
  have hheard : heardTail (m.learn .writer ((m.views .writer).join msg.view)) tailCount =
      tailCount stamp := by
    unfold heardTail
    rw [Memory.learn_views_self]
    show tailCount (max _ _) = _
    rw [hcarried, max_eq_right hle]
  have hmono := hm.tail.counter.mono_seen (hm.wellFormed.reached.thread .writer) hmsg hle
  have hhead : ((m.views .writer).join msg.view).seen .head =
      (m.views .writer).seen .head := by
    obtain ⟨x, hx⟩ :=
      Option.isSome_iff_exists.1 (hm.wellFormed.reached.message hmsg .head)
    exact max_eq_left (h.newest.le hx)
  refine ⟨h.newest.learn fun _ => le_max_left .., ?_, ?_, ?_, hheard ▸ hok⟩
  · rw [Memory.learn_views_self, hhead]
    exact h.total
  · rw [hheard]
    exact h.room.trans (Nat.add_le_add_right hmono _)
  · rw [Memory.learn_views_self, hm.wellFormed.join_knows_self hmsg, h.knows, hknows]

theorem RingInv.loadTail (h : RingInv c requested s) {item : α} {head tail : UInt64}
    (hpc : s.writer = .loadTail item head)
    (hload : s.memory.load .acquire .writer .tail stamp = some (tail, m)) :
    RingInv c requested
      (if c.word ≤ head - tail then
        { s with
          memory := m
          writer := .idle
          refusals := s.refusals ++ [.full s.pushed.length (s.tailCount stamp)] }
      else { s with memory := m, writer := .write item head }) := by
  have hplain := h.plain
  have hwriter := h.writer
  have hhand := h.handshake
  rw [hpc] at hplain hwriter hhand
  obtain ⟨msg, hmsg, hle, hcarried, rfl, rfl⟩ := h.memory.wellFormed.load_acquire hload
  -- The counts behind the two words, which are less than a turn of the counter apart.
  have hseen : s.tailCount stamp ≤ s.popped.length := h.memory.tail.counter.le hmsg
  have horder : s.popped.length ≤ s.pushed.length := h.inOrder.length_le
  have hmono := h.memory.tail.counter.mono_seen
    (h.memory.wellFormed.reached.thread .writer) hmsg hle
  have hnear : s.pushed.length ≤ s.tailCount stamp + c.size :=
    hwriter.room.trans (Nat.add_le_add_right hmono _)
  have hsize := c.size_lt
  have hsub : (head - msg.value).toNat = s.pushed.length - s.tailCount stamp := by
    rw [show head = _ from hwriter.ok, h.memory.tail.counter.value hmsg]
    exact toNat_counter_sub (by omega) (by omega)
  have hreader := h.reader.writerHears ((s.memory.views .writer).join msg.view)
  split
  · next hfull =>
      rw [UInt64.le_iff_toNat_le, hsub] at hfull
      refine
        { memory := h.memory.hear hmsg
          writer := hwriter.hear h.memory hmsg hle hcarried rfl trivial
          reader := hreader
          plain := hplain
          handshake := hhand.running rfl rfl
          inOrder := h.inOrder
          refusals := ?_ }
      intro r hr
      rcases List.mem_append.1 hr with hr | hr
      · exact h.refusals r hr
      · rw [List.mem_singleton.1 hr]
        show s.pushed.length = s.tailCount stamp + c.size
        have hfull : c.size ≤ s.pushed.length - s.tailCount stamp := hfull
        have hpos := c.size_pos
        omega
  · next hroom =>
      rw [UInt64.le_iff_toNat_le, hsub] at hroom
      have hroom : ¬ c.size ≤ s.pushed.length - s.tailCount stamp := hroom
      exact
        { memory := h.memory.hear hmsg
          writer := hwriter.hear h.memory hmsg hle hcarried rfl ⟨hwriter.ok, by omega⟩
          reader := hreader
          plain := hplain
          handshake := hhand.running rfl rfl
          inOrder := h.inOrder
          refusals := h.refusals }

theorem RingInv.heardHead_le (h : RingInv c requested s) :
    heardHead s.memory s.headCount ≤ s.pushed.length := by
  obtain ⟨msg, hmsg⟩ :=
    Option.isSome_iff_exists.1 (h.memory.wellFormed.reached.thread .reader .head)
  exact h.memory.head.counter.le hmsg

theorem RingInv.heardTail_le (h : RingInv c requested s) :
    heardTail s.memory s.tailCount ≤ s.popped.length := by
  obtain ⟨msg, hmsg⟩ :=
    Option.isSome_iff_exists.1 (h.memory.wellFormed.reached.thread .writer .tail)
  exact h.memory.tail.counter.le hmsg

/-- The reader has read no slot but those of pushed items. -/
theorem RingInv.taken_le (h : RingInv c requested s) :
    s.reader.taken s.popped.length ≤ s.pushed.length := by
  have hok := h.reader.ok
  have hle := h.heardHead_le
  cases hpc : s.reader with
  | storeTail tail item =>
      rw [hpc] at hok
      have hlt : s.popped.length < _ := hok.2.1
      show s.popped.length + 1 ≤ _
      omega
  | _ => exact h.inOrder.length_le

/-- With room by what the writer has heard, every read of the slot it will write next
happened before. -/
theorem RingInv.read_le (h : RingInv c requested s)
    (hroom : s.pushed.length < heardTail s.memory s.tailCount + c.size) :
    (s.memory.plain (.slot (s.pushed.length % c.size))).read .reader ≤
      (s.memory.views .writer).knows .reader := by
  rcases h.plain.reads (s.pushed.length % c.size) with hnone | ⟨j, hj, hslot, hread⟩
  · exact hnone ▸ Nat.zero_le _
  · have hlt : j < s.pushed.length := hj.trans_le h.taken_le
    -- The last read of this slot was a whole lap before.
    have hlap : j + c.size ≤ s.pushed.length := by
      by_contra hnear
      exact mod_ne_of_lt hlt (by omega) hslot.symm
    rw [hread]
    exact le_of_accessesFor_le (h.memory.tail.accounts.thread .writer)
      (show j < heardTail s.memory s.tailCount by omega)

theorem RingInv.write (h : RingInv c requested s) {item : α} {head : UInt64}
    (hpc : s.writer = .write item head) :
    RingInv c requested
      { s with
        memory := s.memory.write .writer (.slot (c.slot head).val) item
        writer := .storeHead item head } := by
  have hplain := h.plain
  have hwriter := h.writer
  have hhand := h.handshake
  rw [hpc] at hplain hwriter hhand
  obtain ⟨hhead, hroom⟩ : head = UInt64.ofNat s.pushed.length ∧ _ < _ := hwriter.ok
  have hslot : (c.slot head).val = s.pushed.length % c.size := by
    rw [hhead]
    exact c.slot_counter _
  rw [hslot]
  have hreads := knowsReads_writer h (h.read_le hroom)
  have hheard := h.heardTail_le
  refine
    { memory := h.memory.write item (knowsWrite_writer h _) hreads
      writer := hwriter.accessed rfl ⟨hhead, hroom⟩
      reader := h.reader.afterWrite
      plain := ⟨fun n => ?_, fun hblank => (by cases hblank),
        fun _ => ?_, fun k hlo hhi => ?_, fun i => ?_⟩
      handshake := hhand.running rfl rfl
      inOrder := h.inOrder
      refusals := h.refusals }
  · by_cases hn : n = .slot (s.pushed.length % c.size)
    · subst hn
      rw [Memory.write_plain_self]
    · rw [Memory.write_plain_of_ne hn]
      exact hplain.owner n
  · rw [Memory.write_plain_of_ne (slot_ne_capacity _).symm]
    exact hplain.capacity rfl
  · change s.popped.length ≤ k at hlo
    change k < (s.pushed ++ [item]).length at hhi
    rw [List.length_append, List.length_singleton] at hhi
    show (s.pushed ++ [item])[k]? = _ ∧ _
    by_cases hk : k = s.pushed.length
    · subst hk
      rw [Memory.write_plain_self, List.getElem?_append_right le_rfl, Nat.sub_self]
      exact ⟨rfl, by rw [hwriter.knows]; rfl⟩
    · have hlt : k < s.pushed.length := by omega
      have hne : Field.slot (k % c.size) ≠ .slot (s.pushed.length % c.size) := by
        intro heq
        exact mod_ne_of_lt hlt (by omega) (Field.slot.inj heq)
      rw [Memory.write_plain_of_ne hne, List.getElem?_append_left hlt]
      have hcontent := hplain.content k hlo (by simpa [WriterPc.inHand] using hlt)
      simpa [WriterPc.inHand] using hcontent
  · by_cases hi : Field.slot i = .slot (s.pushed.length % c.size)
    · rw [hi, Memory.write_plain_self]
      rw [Field.slot.inj hi]
      exact hplain.reads _
    · rw [Memory.write_plain_of_ne hi]
      exact hplain.reads i

theorem RingInv.storeHead (h : RingInv c requested s) {item : α} {head : UInt64}
    (hpc : s.writer = .storeHead item head)
    (hst : Memory.Stored s.memory m .release .writer .head stamp (head + 1)) :
    RingInv c requested
      { s with
        memory := m
        writer := .idle
        pushed := s.pushed ++ [item]
        headCount := Function.update s.headCount stamp (s.pushed.length + 1) } := by
  have hplain := h.plain
  have hwriter := h.writer
  have hhand := h.handshake
  rw [hpc] at hplain hwriter hhand
  obtain ⟨hhead, hroom⟩ : head = UInt64.ofNat s.pushed.length ∧ _ < _ := hwriter.ok
  rw [hhead, ← ofNat_succ_word] at hst
  have hlen : (s.pushed ++ [item]).length = s.pushed.length + 1 := List.length_append
  have hwf := h.memory.wellFormed
  have haccesses :
      accessesFor (s.pushed.length + 1) ≤ (s.memory.views .writer).knows .writer :=
    accessesFor_le hwriter.knows.ge
  have hcursor := h.memory.head.store hwf hst hwriter.newest
    (Nat.le_succ _) haccesses haccesses
  have hstored : WriterInv c m .idle (s.pushed.length + 1)
      (Function.update s.headCount stamp (s.pushed.length + 1)) s.tailCount :=
    hwriter.storedHead hst hroom rfl trivial
  refine
    { memory := h.memory.store hst ?_ (h.memory.tail.store_of_ne hwf hst (by decide))
      writer := ?_
      reader := h.reader.stored hst (fun _ => ⟨by decide, rfl⟩)
        (Function.update_of_ne (hst.seen_ne (hwf.reached.thread .reader)) _ _)
        (List.prefix_append _ _)
      plain := ?_
      handshake := hhand.running (hst.messages_of_ne (by decide))
        (hst.messages_of_ne (by decide))
      inOrder := h.inOrder.trans (List.prefix_append _ _)
      refusals := h.refusals }
  · show CursorInv m .head .writer _ (s.pushed ++ [item]).length
    rw [hlen]
    exact hcursor
  · show WriterInv c m .idle (s.pushed ++ [item]).length _ _
    rw [hlen]
    exact hstored
  · show PlainInv c m.plain false (s.pushed ++ [item] ++ []) _ _
    rw [List.append_nil, hst.plain]
    exact hplain

end Writer

/-! ## The reader -/

section Reader

variable {c : Capacity} {requested : UInt64} {s : SharedRing α} {m : Segment α}
  {stamp : Nat}

/-- The writer is left alone by what the reader hears. -/
theorem WriterInv.readerHears {pc : WriterPc α} {pushed : Nat}
    {headCount tailCount : Nat → Nat} (h : WriterInv c m pc pushed headCount tailCount)
    (view : View Role Cursor) :
    WriterInv c (m.learn .reader view) pc pushed headCount tailCount := by
  have hview : (m.learn .reader view).views .writer = m.views .writer :=
    Memory.learn_views_of_ne (by decide) view
  refine h.congr hview rfl ?_
  unfold heardTail
  rw [hview]

theorem WriterInv.readerReads {pc : WriterPc α} {pushed : Nat}
    {headCount tailCount : Nat → Nat} (h : WriterInv c m pc pushed headCount tailCount)
    (n : Field) : WriterInv c (m.read .reader n).2 pc pushed headCount tailCount := by
  have hview : (m.read .reader n).2.views .writer = m.views .writer :=
    Memory.read_views_of_ne (by decide)
  refine h.congr hview rfl ?_
  unfold heardTail
  rw [hview]

theorem RingInv.awaitReady (h : RingInv c requested s) (hpc : s.reader = .awaitReady)
    {ready : UInt64}
    (hload : s.memory.load .acquire .reader .ready stamp = some (ready, m)) :
    RingInv c requested
      { s with
        memory := m
        reader := if ready = readyMagic then .readCapacity else .awaitReady } := by
  have hplain := h.plain
  have hreader := h.reader
  have hhand := h.handshake
  rw [hpc] at hplain hreader hhand
  have hwf := h.memory.wellFormed
  obtain ⟨msg, hmsg, hle, hcarried, rfl, rfl⟩ := hwf.load_acquire hload
  have hzero : s.popped.length = 0 := hreader.nothing rfl
  have hmemory := h.memory.hear (t := .reader) hmsg
  have hview := Memory.learn_views_of_ne (m := s.memory) (t := .reader) (u := .writer)
    (by decide) ((s.memory.views .reader).join msg.view)
  have hknows : ((s.memory.learn .reader ((s.memory.views .reader).join msg.view)).views
      .reader).knows .reader = 0 := by
    rw [Memory.learn_views_self, hwf.join_knows_self hmsg]
    exact hreader.knows rfl
  split
  · next hmagic =>
      obtain ⟨hheader, hall⟩ := hhand.published hmsg hmagic
      have hcreated : s.writer.creating = false := by
        refine Bool.eq_false_iff.2 fun hcreating => ?_
        exact hhand.unready hcreating hmsg hmagic
      refine
        { memory := hmemory
          writer := h.writer.readerHears _
          reader := ⟨fun _ stamp' msg' hmsg' => ?_,
            fun _ => ?_, fun _ => ?_, ?_,
            fun _ => hknows, fun hfalse => (by cases hfalse), fun _ => hzero, trivial⟩
          plain := hplain
          handshake := hhand.congr hview rfl (fun _ => hcreated) fun _ => rfl
          inOrder := h.inOrder
          refusals := h.refusals }
      · rw [Memory.learn_views_self]
        exact (hall rfl hmsg').trans (le_max_right ..)
      · obtain ⟨x, hx⟩ :=
          Option.isSome_iff_exists.1 (hmemory.wellFormed.reached.thread .reader .tail)
        have hcount := hmemory.tail.counter.le hx
        rw [hzero] at hcount ⊢
        exact Nat.le_zero.1 hcount
      · rw [Memory.learn_views_self]
        exact hheader.trans (le_max_right ..)
      · show s.popped.length ≤ _
        omega
  · exact
      { memory := hmemory
        writer := h.writer.readerHears _
        reader := ⟨fun hfalse => (by cases hfalse), fun hfalse => (by cases hfalse),
          fun hfalse => (by cases hfalse), hzero.le.trans (Nat.zero_le _),
          fun _ => hknows, fun hfalse => (by cases hfalse), fun _ => hzero, trivial⟩
        plain := hplain
        handshake := hhand.congr hview rfl (fun hfalse => (by cases hfalse)) fun _ => rfl
        inOrder := h.inOrder
        refusals := h.refusals }

theorem knowsWrite_reader (h : RingInv c requested s) {n : Field}
    (hknown : (s.memory.plain n).written ≤ (s.memory.views .reader).knows .writer) :
    s.memory.knowsWrite .reader n = true := by
  unfold Memory.knowsWrite
  rw [h.plain.owner]
  exact decide_eq_true hknown

theorem heardHead_read (m : Segment α) (n : Field) (headCount : Nat → Nat) :
    heardHead (m.read .reader n).2 headCount = heardHead m headCount := by
  unfold heardHead
  rw [Memory.read_views_self]
  rfl

theorem RingInv.readCapacity (h : RingInv c requested s)
    (hpc : s.reader = .readCapacity) :
    RingInv c requested
      { s with
        memory := (s.memory.read .reader .capacity).2
        reader := if ((s.memory.read .reader .capacity).1 : UInt64) = requested then
          .idle else .failed } := by
  have hplain := h.plain
  have hreader := h.reader
  have hhand := h.handshake
  rw [hpc] at hplain hreader hhand
  have hcreated := hhand.created rfl
  have hblank := WriterPc.blank_eq_false hcreated
  obtain ⟨hvalue, hwritten⟩ := hplain.capacity hblank
  have hzero : s.popped.length = 0 := hreader.nothing rfl
  have hmemory := h.memory.read
    (knowsWrite_reader h (hwritten.trans (hreader.header rfl)))
  have hview : (s.memory.read .reader .capacity).2.views .writer =
      s.memory.views .writer :=
    Memory.read_views_of_ne (by decide)
  have hslots : ∀ i, (s.memory.read .reader .capacity).2.plain (.slot i) =
      s.memory.plain (.slot i) :=
    fun i => Memory.read_plain_of_ne (slot_ne_capacity i)
  have hplain' : PlainInv c (s.memory.read .reader .capacity).2.plain s.writer.blank
      (s.pushed ++ s.writer.inHand) s.popped.length s.popped.length := by
    refine ⟨fun n => (Memory.read_plain n).2.1.trans (hplain.owner n),
      fun hfalse => ?_, fun _ => ?_, fun k hlo hhi => ?_, fun i => ?_⟩
    · rw [hblank] at hfalse
      cases hfalse
    · rw [Memory.read_plain_self]
      exact ⟨hvalue, hwritten⟩
    · rw [hslots]
      exact hplain.content k hlo hhi
    · rw [hslots]
      exact hplain.reads i
  have hheard := heardHead_read s.memory .capacity s.headCount
  split
  · next hsame =>
      refine
        { memory := hmemory
          writer := h.writer.readerReads _
          reader := ⟨fun _ stamp' msg' hmsg' => ?_,
            fun _ => ?_, fun _ => ?_, ?_,
            fun _ => ?_, fun _ => hsame.symm.trans hvalue,
            fun hfalse => (by cases hfalse), trivial⟩
          plain := hplain'
          handshake := hhand.congr hview rfl (fun _ => hcreated) fun _ => rfl
          inOrder := h.inOrder
          refusals := h.refusals }
      · rw [Memory.read_views_self]
        exact (hreader.newest rfl).le hmsg'
      · rw [Memory.read_views_self]
        exact hreader.total rfl
      · rw [Memory.read_views_self, View.tick_knows_of_ne _ (by decide)]
        exact hreader.header rfl
      · rw [hheard]
        exact hreader.heard
      · rw [Memory.read_views_self, View.tick_knows_self, hreader.knows rfl]
        show 0 + 1 = s.popped.length + 1
        rw [hzero]
  · exact
      { memory := hmemory
        writer := h.writer.readerReads _
        reader := ⟨fun hfalse => (by cases hfalse), fun hfalse => (by cases hfalse),
          fun hfalse => (by cases hfalse), hheard ▸ hreader.heard,
          fun hfalse => (by cases hfalse), fun hfalse => (by cases hfalse),
          fun _ => hzero, trivial⟩
        plain := hplain'
        handshake := hhand.congr hview rfl (fun hfalse => (by cases hfalse)) fun _ => rfl
        inOrder := h.inOrder
        refusals := h.refusals }

theorem RingInv.loadOwnTail (h : RingInv c requested s) (hpc : s.reader = .loadTail)
    {tail : UInt64} (hload : s.memory.load .relaxed .reader .tail stamp =
      some (tail, m)) :
    RingInv c requested { s with memory := m, reader := .loadHead tail } := by
  have hplain := h.plain
  have hreader := h.reader
  have hhand := h.handshake
  rw [hpc] at hplain hreader hhand
  obtain ⟨rfl, rfl, msg, hmsg, rfl⟩ :=
    Memory.load_relaxed_newest (hreader.newest rfl) hload
  have hvalue := h.memory.tail.counter.value hmsg
  rw [hreader.total rfl] at hvalue
  exact
    { memory := h.memory
      writer := h.writer
      reader := ⟨hreader.newest, hreader.total, hreader.header, hreader.heard,
        hreader.knows, hreader.agrees, hreader.nothing, hvalue⟩
      plain := hplain
      handshake := hhand
      inOrder := h.inOrder
      refusals := h.refusals }

/-- What hearing of `head` does to the reader. -/
theorem ReaderInv.hear {pc pc' : ReaderPc α} {items : List α} {pushed popped : Nat}
    {headCount tailCount : Nat → Nat} {msg : Message Role Cursor UInt64}
    (h : ReaderInv c requested m pc items popped headCount tailCount)
    (hm : MemoryInv m pushed popped headCount tailCount) (hattached : pc.attached = true)
    (hmsg : m.messages .head stamp = some msg)
    (hle : (m.views .reader).seen .head ≤ stamp)
    (hcarried : msg.view.seen .head = stamp) (hattached' : pc'.attached = true)
    (hknows : pc'.accesses popped = pc.accesses popped)
    (hok : pc'.Ok popped (headCount stamp) items) :
    ReaderInv c requested (m.learn .reader ((m.views .reader).join msg.view)) pc' items
      popped headCount tailCount := by
  have hopen := ReaderPc.opened_of_attached hattached
  have hheard : heardHead (m.learn .reader ((m.views .reader).join msg.view)) headCount =
      headCount stamp := by
    unfold heardHead
    rw [Memory.learn_views_self]
    show headCount (max _ _) = _
    rw [hcarried, max_eq_right hle]
  have hmono := hm.head.counter.mono_seen (hm.wellFormed.reached.thread .reader) hmsg hle
  have htail : ((m.views .reader).join msg.view).seen .tail =
      (m.views .reader).seen .tail := by
    obtain ⟨x, hx⟩ :=
      Option.isSome_iff_exists.1 (hm.wellFormed.reached.message hmsg .tail)
    exact max_eq_left ((h.newest hopen).le hx)
  refine ⟨fun _ => (h.newest hopen).learn fun _ => le_max_left ..,
    fun _ => ?_, fun _ => ?_, ?_,
    fun _ => ?_, fun _ => h.agrees hattached, fun hfalse => ?_, hheard ▸ hok⟩
  · rw [Memory.learn_views_self, htail]
    exact h.total hopen
  · rw [Memory.learn_views_self]
    exact (h.header hopen).trans (le_max_left ..)
  · rw [hheard]
    exact h.heard.trans hmono
  · rw [Memory.learn_views_self, hm.wellFormed.join_knows_self hmsg,
      h.knows (ReaderPc.not_failed_of_opened hopen), hknows]
  · rw [hattached'] at hfalse
    cases hfalse

theorem RingInv.loadHeadOf (h : RingInv c requested s) {tail head : UInt64}
    (hpc : s.reader = .loadHead tail)
    (hload : s.memory.load .acquire .reader .head stamp = some (head, m)) :
    RingInv c requested
      (if head = tail then
        { s with
          memory := m
          reader := .idle
          refusals := s.refusals ++ [.empty s.popped.length (s.headCount stamp)] }
      else { s with memory := m, reader := .read tail }) := by
  have hplain := h.plain
  have hreader := h.reader
  have hhand := h.handshake
  rw [hpc] at hplain hreader hhand
  obtain ⟨msg, hmsg, hle, hcarried, rfl, rfl⟩ := h.memory.wellFormed.load_acquire hload
  have hview := Memory.learn_views_of_ne (m := s.memory) (t := .reader) (u := .writer)
    (by decide) ((s.memory.views .reader).join msg.view)
  -- What the reader has heard of lies between its own count and a lap ahead of it.
  have hmono := h.memory.head.counter.mono_seen
    (h.memory.wellFormed.reached.thread .reader) hmsg hle
  have hlo : s.popped.length ≤ s.headCount stamp := hreader.heard.trans hmono
  have hhi : s.headCount stamp ≤ s.pushed.length := h.memory.head.counter.le hmsg
  have hroom := h.writer.room
  have hheard := h.heardTail_le
  have hsize := c.size_lt
  have htail : tail = UInt64.ofNat s.popped.length := hreader.ok
  have hsame : msg.value = tail ↔ s.headCount stamp = s.popped.length := by
    rw [h.memory.head.counter.value hmsg, htail]
    exact counter_eq_iff hlo (by omega)
  split
  · next hempty =>
      refine
        { memory := h.memory.hear hmsg
          writer := h.writer.readerHears _
          reader := hreader.hear h.memory rfl hmsg hle hcarried rfl rfl trivial
          plain := hplain
          handshake :=
            hhand.congr hview rfl (fun _ => hhand.created rfl) fun hfalse => hfalse
          inOrder := h.inOrder
          refusals := ?_ }
      intro r hr
      rcases List.mem_append.1 hr with hr | hr
      · exact h.refusals r hr
      · rw [List.mem_singleton.1 hr]
        exact hsame.1 hempty
  · next hmore =>
      have hne : s.headCount stamp ≠ s.popped.length := fun heq => hmore (hsame.2 heq)
      exact
        { memory := h.memory.hear hmsg
          writer := h.writer.readerHears _
          reader := hreader.hear h.memory rfl hmsg hle hcarried rfl rfl ⟨htail, by omega⟩
          plain := hplain
          handshake :=
            hhand.congr hview rfl (fun _ => hhand.created rfl) fun hfalse => hfalse
          inOrder := h.inOrder
          refusals := h.refusals }

theorem RingInv.read (h : RingInv c requested s) {tail : UInt64}
    (hpc : s.reader = .read tail) :
    RingInv c requested
      { s with
        memory := (s.memory.read .reader (.slot (tail &&& (requested - 1)).toNat)).2
        reader := .storeTail tail
          (s.memory.read .reader (.slot (tail &&& (requested - 1)).toNat)).1 } := by
  have hplain := h.plain
  have hreader := h.reader
  have hhand := h.handshake
  rw [hpc] at hplain hreader hhand
  obtain ⟨htail, hlt⟩ : tail = UInt64.ofNat s.popped.length ∧ _ < _ := hreader.ok
  have hslot : (tail &&& (requested - 1)).toNat = s.popped.length % c.size := by
    rw [htail, hreader.agrees rfl]
    exact c.slot_counter _
  rw [hslot]
  have hpushed : s.popped.length < s.pushed.length := hlt.trans_le h.heardHead_le
  obtain ⟨hvalue, hwritten⟩ := hplain.content s.popped.length le_rfl
    (by rw [List.length_append]; omega)
  rw [List.getElem?_append_left hpushed] at hvalue
  have hknown := le_of_accessesFor_le (h.memory.head.accounts.thread .reader) hlt
  have hmemory := h.memory.read (knowsWrite_reader h (hwritten ▸ hknown))
  have hview :
      (s.memory.read .reader (.slot (s.popped.length % c.size))).2.views .writer =
        s.memory.views .writer := Memory.read_views_of_ne (by decide)
  have hheard := heardHead_read s.memory (.slot (s.popped.length % c.size)) s.headCount
  refine
    { memory := hmemory
      writer := h.writer.readerReads _
      reader := ⟨fun _ stamp' msg' hmsg' => ?_,
        fun _ => ?_, fun _ => ?_, hheard ▸ hreader.heard, fun _ => ?_, hreader.agrees,
        hreader.nothing, htail, hheard ▸ hlt, hvalue⟩
      plain := ⟨fun n => (Memory.read_plain n).2.1.trans (hplain.owner n),
        fun hblank => ?_, fun hblank => ?_, fun k hlo hhi => ?_, fun i => ?_⟩
      handshake :=
        hhand.congr hview rfl (fun _ => hhand.created rfl) fun hfalse => hfalse
      inOrder := h.inOrder
      refusals := h.refusals }
  · rw [Memory.read_views_self]
    exact (hreader.newest rfl).le hmsg'
  · rw [Memory.read_views_self]
    exact hreader.total rfl
  · rw [Memory.read_views_self, View.tick_knows_of_ne _ (by decide)]
    exact hreader.header rfl
  · rw [Memory.read_views_self, View.tick_knows_self, hreader.knows rfl]
    rfl
  · rw [Memory.read_plain_of_ne (slot_ne_capacity _).symm]
    exact hplain.unread hblank
  · rw [Memory.read_plain_of_ne (slot_ne_capacity _).symm]
    exact hplain.capacity hblank
  · rw [(Memory.read_plain _).1, (Memory.read_plain _).2.2]
    exact hplain.content k hlo hhi
  · by_cases hi : Field.slot i = .slot (s.popped.length % c.size)
    · refine .inr ⟨s.popped.length, Nat.lt_succ_self _, Field.slot.inj hi, ?_⟩
      rw [hi, Memory.read_read_self, hreader.knows rfl]
      rfl
    · rw [Memory.read_plain_of_ne hi]
      rcases hplain.reads i with hnone | ⟨j, hj, hslot, hread⟩
      · exact .inl hnone
      · exact .inr ⟨j, Nat.lt_succ_of_lt hj, hslot, hread⟩

theorem RingInv.storeTail (h : RingInv c requested s) {tail : UInt64} {item : α}
    (hpc : s.reader = .storeTail tail item)
    (hst : Memory.Stored s.memory m .release .reader .tail stamp (tail + 1)) :
    RingInv c requested
      { s with
        memory := m
        reader := .idle
        popped := s.popped ++ [item]
        tailCount := Function.update s.tailCount stamp (s.popped.length + 1) } := by
  have hplain := h.plain
  have hreader := h.reader
  have hhand := h.handshake
  rw [hpc] at hplain hreader hhand
  obtain ⟨htail, hlt, hitem⟩ : tail = UInt64.ofNat s.popped.length ∧ _ < _ ∧ _ = _ :=
    hreader.ok
  rw [htail, ← ofNat_succ_word] at hst
  have hlen : (s.popped ++ [item]).length = s.popped.length + 1 := List.length_append
  have hwf := h.memory.wellFormed
  have haccesses :
      accessesFor (s.popped.length + 1) ≤ (s.memory.views .reader).knows .reader :=
    accessesFor_le (hreader.knows rfl).ge
  have hcursor := h.memory.tail.store hwf hst (hreader.newest rfl)
    (Nat.le_succ _) haccesses haccesses
  have hview := hst.views (u := .writer) (by decide)
  have hheard : heardHead m s.headCount = heardHead s.memory s.headCount := by
    unfold heardHead
    rw [hst.view, View.raise_seen_of_ne _ (by decide)]
  refine
    { memory := h.memory.store hst (h.memory.head.store_of_ne hwf hst (by decide)) ?_
      writer := h.writer.congr hview (hst.messages_of_ne (by decide)) ?_
      reader := ⟨fun _ => hst.newest (hreader.newest rfl) fun _ => rfl,
        fun _ => ?_, fun _ => ?_, ?_, fun _ => ?_, hreader.agrees,
        fun hfalse => (by cases hfalse), trivial⟩
      plain := ?_
      handshake := ?_
      inOrder := ?_
      refusals := h.refusals }
  · show CursorInv m .tail .reader _ (s.popped ++ [item]).length
    rw [hlen]
    exact hcursor
  · unfold heardTail
    rw [hview]
    exact Function.update_of_ne (hst.seen_ne (hwf.reached.thread .writer)) _ _
  · show Function.update s.tailCount stamp (s.popped.length + 1)
      ((m.views .reader).seen .tail) =
      (s.popped ++ [item]).length
    rw [hlen, hst.view, View.raise_seen, Function.update_self]
  · rw [hst.knows_eq]
    exact hreader.header rfl
  · show (s.popped ++ [item]).length ≤ _
    rw [hlen, hheard]
    exact hlt
  · show _ = (s.popped ++ [item]).length + 1
    rw [hlen, hst.knows_eq, hreader.knows rfl]
    rfl
  · show PlainInv c m.plain _ _ (s.popped ++ [item]).length (s.popped ++ [item]).length
    rw [hlen, hst.plain]
    exact ⟨hplain.owner, hplain.unread, hplain.capacity,
      fun k hlo hhi => hplain.content k (Nat.le_of_succ_le hlo) hhi, hplain.reads⟩
  · refine ⟨hhand.nothing, fun hcreating => ?_, ?_, hhand.created, ?_⟩
    · have hcreated := hhand.created rfl
      rw [hcreated] at hcreating
      cases hcreating
    · rw [hst.messages_of_ne (by decide)]
      exact hhand.unready
    · rw [hst.messages_of_ne (by decide)]
      exact fun hmsg hmagic =>
        ⟨(hhand.published hmsg hmagic).1, fun hfalse => by cases hfalse⟩
  · obtain ⟨rest, hrest⟩ := h.inOrder
    rw [← hrest, List.getElem?_append_right le_rfl, Nat.sub_self] at hitem
    cases rest with
    | nil => cases hitem
    | cons x rest =>
        cases hitem
        exact ⟨rest, by rw [List.append_assoc]; exact hrest⟩

end Reader

/-! ## Runs -/

section Runs

variable {c : Capacity} {requested : UInt64} {s t : SharedRing α}

theorem RingInv.writerStep (h : RingInv c requested s) {stamp : Nat}
    (hstep : writerStep orderings c s stamp = some t) : RingInv c requested t := by
  unfold Weak.writerStep at hstep
  split at hstep
  · next hpc =>
      cases hstep
      exact h.setCapacity hpc
  · next hpc =>
      obtain ⟨m, hm, rfl⟩ := Option.map_eq_some_iff.1 hstep
      exact h.setHead hpc (.of_store hm)
  · next hpc =>
      obtain ⟨m, hm, rfl⟩ := Option.map_eq_some_iff.1 hstep
      exact h.setTail hpc (.of_store hm)
  · next hpc =>
      obtain ⟨m, hm, rfl⟩ := Option.map_eq_some_iff.1 hstep
      exact h.setReady hpc (.of_store hm)
  · cases hstep
  · next item hpc =>
      obtain ⟨⟨head, m⟩, hm, rfl⟩ := Option.map_eq_some_iff.1 hstep
      exact h.loadHead hpc hm
  · next item head hpc =>
      obtain ⟨⟨tail, m⟩, hm, rfl⟩ := Option.map_eq_some_iff.1 hstep
      exact h.loadTail hpc hm
  · next item head hpc =>
      cases hstep
      exact h.write hpc
  · next item head hpc =>
      obtain ⟨m, hm, rfl⟩ := Option.map_eq_some_iff.1 hstep
      exact h.storeHead hpc (.of_store hm)

theorem RingInv.readerStep (h : RingInv c requested s) {stamp : Nat}
    (hstep : readerStep orderings requested s stamp = some t) :
    RingInv c requested t := by
  unfold Weak.readerStep at hstep
  split at hstep
  · next hpc =>
      obtain ⟨⟨ready, m⟩, hm, rfl⟩ := Option.map_eq_some_iff.1 hstep
      exact h.awaitReady hpc hm
  · next hpc =>
      cases hstep
      exact h.readCapacity hpc
  · cases hstep
  · cases hstep
  · next hpc =>
      obtain ⟨⟨tail, m⟩, hm, rfl⟩ := Option.map_eq_some_iff.1 hstep
      exact h.loadOwnTail hpc hm
  · next tail hpc =>
      obtain ⟨⟨head, m⟩, hm, rfl⟩ := Option.map_eq_some_iff.1 hstep
      exact h.loadHeadOf hpc hm
  · next tail hpc =>
      cases hstep
      exact h.read hpc
  · next tail item hpc =>
      obtain ⟨m, hm, rfl⟩ := Option.map_eq_some_iff.1 hstep
      exact h.storeTail hpc (.of_store hm)

theorem RingInv.callPush (h : RingInv c requested s) (hpc : s.writer = .idle)
    (item : α) : RingInv c requested { s with writer := .loadHead item } := by
  have hplain := h.plain
  have hwriter := h.writer
  have hhand := h.handshake
  rw [hpc] at hplain hwriter hhand
  exact
    { memory := h.memory
      writer := ⟨hwriter.newest, hwriter.total, hwriter.room, hwriter.knows, trivial⟩
      reader := h.reader
      plain := hplain
      handshake := hhand
      inOrder := h.inOrder
      refusals := h.refusals }

theorem RingInv.callPop (h : RingInv c requested s) (hpc : s.reader = .idle) :
    RingInv c requested { s with reader := .loadTail } := by
  have hplain := h.plain
  have hreader := h.reader
  have hhand := h.handshake
  rw [hpc] at hplain hreader hhand
  exact
    { memory := h.memory
      writer := h.writer
      reader := ⟨hreader.newest, hreader.total, hreader.header, hreader.heard,
        hreader.knows, hreader.agrees, hreader.nothing, trivial⟩
      plain := hplain
      handshake := hhand
      inOrder := h.inOrder
      refusals := h.refusals }

theorem RingInv.timeout (h : RingInv c requested s) (hpc : s.reader = .awaitReady) :
    RingInv c requested { s with reader := .failed } := by
  have hplain := h.plain
  have hreader := h.reader
  have hhand := h.handshake
  rw [hpc] at hplain hreader hhand
  exact
    { memory := h.memory
      writer := h.writer
      reader := ⟨hreader.newest, hreader.total, hreader.header, hreader.heard,
        fun hfalse => (by cases hfalse), hreader.agrees, hreader.nothing, trivial⟩
      plain := hplain
      handshake := hhand
      inOrder := h.inOrder
      refusals := h.refusals }

theorem RingInv.step {a : Act α} (h : RingInv c requested s)
    (hstep : ringStep orderings c requested s a = some t) : RingInv c requested t := by
  cases a with
  | callPush item =>
      simp only [ringStep] at hstep
      split at hstep
      · next hpc =>
          cases hstep
          exact h.callPush hpc item
      · cases hstep
  | writer stamp => exact h.writerStep hstep
  | callPop =>
      simp only [ringStep] at hstep
      split at hstep
      · next hpc =>
          cases hstep
          exact h.callPop hpc
      · cases hstep
  | timeout =>
      simp only [ringStep] at hstep
      split at hstep
      · next hpc =>
          cases hstep
          exact h.timeout hpc
      · cases hstep
  | reader stamp => exact h.readerStep hstep

theorem RingInv.start (c : Capacity) (requested : UInt64) (zero : α) :
    RingInv c requested (freshSegment zero) := by
  have hcounter : ∀ l, (freshSegment zero).memory.Counter l UInt64.ofNat
      (fun _ => 0) 0 := by
    intro l
    refine ⟨fun hmsg => ?_, fun _ => le_rfl, fun _ _ _ => le_rfl⟩
    rw [(Memory.fresh_message hmsg).2]
    rfl
  have haccounts : ∀ l t,
      (freshSegment zero).memory.Views
      (Memory.Accounts l t (accessesFor ∘ fun _ => 0)) :=
    fun l t => ⟨fun _ => Nat.zero_le _, fun _ => Nat.zero_le _⟩
  have hnewest : ∀ t l, (freshSegment zero).memory.Newest t l :=
    fun t l stamp msg hmsg => (Memory.fresh_message hmsg).1.le
  refine
    { memory := ⟨.fresh _ _ _, rfl, fun _ => rfl, ⟨hcounter _, rfl, haccounts _ _⟩,
        ⟨hcounter _, rfl, haccounts _ _⟩⟩
      writer := ⟨hnewest _ _, rfl, Nat.zero_le _, rfl, trivial⟩
      reader := ⟨fun hfalse => (by cases hfalse), fun hfalse => (by cases hfalse),
        fun hfalse => (by cases hfalse), Nat.zero_le _, fun _ => rfl,
        fun hfalse => (by cases hfalse), fun _ => rfl, trivial⟩
      plain := ⟨fun _ => rfl, fun _ => rfl, fun hfalse => (by cases hfalse),
        fun k _ hlt => (by cases hlt), fun _ => .inl rfl⟩
      handshake := ⟨fun _ => rfl,
        fun _ => hnewest _ _, fun _ => ?_, fun hfalse => (by cases hfalse), ?_⟩
      inOrder := List.prefix_refl _
      refusals := fun r hr => (by cases hr) }
  · intro stamp msg hmsg
    rw [(Memory.fresh_message hmsg).2]
    decide
  · intro stamp msg hmsg hmagic
    rw [(Memory.fresh_message hmsg).2] at hmagic
    exact absurd hmagic (by decide)

/-- The orderings in the source are enough.  Over release/acquire memory, whatever old
cursors the loads see, no run has a data race on a slot or on the header; a reader
attaches only with the writer's capacity; the items come out in the order they went in,
and never more than the capacity are in flight; and an attempt is refused only if, by
what this side has heard, the ring is full or empty. -/
theorem orderings_suffice (c : Capacity) (requested : UInt64) (zero : α)
    {as : List (Act α)}
    (hrun : exec (ringStep orderings c requested) (freshSegment zero) as = some s) :
    s.memory.raced = false ∧ (s.reader.attached = true → requested = c.word) ∧
      s.popped <+: s.pushed ∧ s.pushed.length ≤ s.popped.length + c.size ∧
      ∀ r ∈ s.refusals, r.Sound c := by
  have h : RingInv c requested s :=
    exec_invariant (fun _ _ _ h hstep => h.step hstep) hrun (.start c requested zero)
  have hroom := h.writer.room
  have hheard := h.heardTail_le
  exact ⟨h.memory.notRaced, h.reader.agrees, h.inOrder, by omega, h.refusals⟩

/-- One item is in flight in a ring of two, and both sides are refused: the writer has
not heard of the pop, nor the reader of the second push. -/
theorem orderings_suffice_stale :
    ∃ s, exec (ringStep orderings ⟨2, by decide⟩ 2) (freshSegment 0)
        [.writer 0, .writer 1, .writer 1, .writer 1, .reader 1, .reader 0,
         .callPush 7, .writer 1, .writer 1, .writer 0, .writer 2,
         .callPop, .reader 1, .reader 2, .reader 0, .reader 2,
         .callPush 8, .writer 2, .writer 1, .writer 0, .writer 3,
         .callPush 9, .writer 3, .writer 1, .callPop, .reader 2, .reader 2] = some s ∧
      (s.pushed = [7, 8] ∧ s.popped = [7] ∧ s.refusals = [.full 2 0, .empty 1 1]) ∧
      s.memory.raced = false ∧ (s.reader.attached = true → (2 : UInt64) = 2) ∧
      s.popped <+: s.pushed ∧ s.pushed.length ≤ s.popped.length + 2 ∧
      ∀ r ∈ s.refusals, r.Sound ⟨2, by decide⟩ := by
  obtain ⟨s, hrun, hend⟩ :=
    exists_exec (ringStep orderings ⟨2, by decide⟩ 2) (freshSegment 0)
    [.writer 0, .writer 1, .writer 1, .writer 1, .reader 1, .reader 0,
     .callPush 7, .writer 1, .writer 1, .writer 0, .writer 2,
     .callPop, .reader 1, .reader 2, .reader 0, .reader 2,
     .callPush 8, .writer 2, .writer 1, .writer 0, .writer 3,
     .callPush 9, .writer 3, .writer 1, .callPop, .reader 2, .reader 2]
    (fun s => decide (s.pushed = [7, 8] ∧ s.popped = [7] ∧
      s.refusals = [.full 2 0, .empty 1 1])) (by decide +kernel)
  exact ⟨s, hrun, of_decide_eq_true hend, orderings_suffice ⟨2, by decide⟩ 2 0 hrun⟩

-- Each of the six orderings is needed: with any one of them relaxed this run of a ring
-- of one slot has a data race.
example : ∀ o ∈
      [{ orderings with storeReady := .relaxed },
      { orderings with loadReady := .relaxed },
      { orderings with pushTail := .relaxed }, { orderings with pushHead := .relaxed },
      { orderings with popHead := .relaxed }, { orderings with popTail := .relaxed }],
    (exec (ringStep o ⟨1, by decide⟩ 1) (freshSegment 0)
      [.writer 0, .writer 1, .writer 1, .writer 1, .reader 1, .reader 0,
       .callPush 7, .writer 1, .writer 1, .writer 0, .writer 2,
       .callPop, .reader 1, .reader 2, .reader 0, .reader 2,
       .callPush 8, .writer 2, .writer 2, .writer 0]).any (·.memory.raced) = true := by
  decide +kernel

end Runs

end Candlestore.Weak
