import Mathlib.Data.Fintype.Basic
import Candlestore.Spsc.Fifo
import Candlestore.Spsc.Processes

/-!
# The handshake over a segment

Two rules are left to the operators of the processes: a `create_force` must not run into
another creation of the name, and a segment is read by one reader at a time.  Under them
the store of `ready` hands the segment over: before it only the creator touches the
segment, after it the size and the capacity are fixed, and what the processes do to the
segment are steps of one ring.

What a process relies on at each program point is in `PcOk`, what its step may do to
the memory in `Change`.
-/

namespace Candlestore.Shm

open Lib Spsc

variable {α τ : Type}

/-! ## What holds of an object -/

/-- The ring in an object. -/
def Object.channel (o : Object α) (c : Capacity) : Channel c α where
  slots := fun i => o.slots i
  head := o.header.head
  pushed := o.pushed
  tail := o.header.tail
  popped := o.popped

/-- The mapping of a ring does not wrap around. -/
def Fits (capacity : UInt64) : Prop := slotsOffset.toNat + capacity.toNat * 48 < 2 ^ 64

instance (capacity : UInt64) : Decidable (Fits capacity) :=
  inferInstanceAs (Decidable (_ < _))

/-- An object whose creation is complete, with the ring in it. -/
structure Sealed (o : Object α) (c : Capacity) : Prop where
  ready : o.header.ready = readyMagic
  capacity : o.header.capacity = c.word
  size : o.size = mappingSize c.word
  fits : Fits c.word
  channel : ChannelInv (o.channel c)

/-- An object that nobody has declared ready, either without a size yet or with that of
some ring. -/
structure Blank (o : Object α) : Prop where
  ready : o.header.ready ≠ readyMagic
  pushed : o.pushed = []
  popped : o.popped = []
  sized : o.size = 0 ∨ ∃ capacity, Fits capacity ∧ o.size = mappingSize capacity

/-- Names lead to objects, and every object is untouched or complete. -/
structure ShmInv (m : ShmMem α) : Prop where
  names : ∀ name e, m.names name = some e → e < m.objects.length
  objects : ∀ (e : Nat) o, m.objects[e]? = some o → Blank o ∨ ∃ c, Sealed o c

/-- The process is at an object of which `P` holds. -/
def At (call : ShmCall) (m : ShmMem α) (e : Nat) (P : Object α → Capacity → Prop) :
    Prop :=
  ∃ o c, m.objects[e]? = some o ∧ c.word = call.capacity ∧ P o c

/-- The creation of an object step by step. -/
structure Sized (o : Object α) (c : Capacity) : Prop extends Blank o where
  size : o.size = mappingSize c.word

/-- After the first store of `create_inner`, -/
structure HasCapacity (o : Object α) (c : Capacity) : Prop extends Sized o c where
  capacity : o.header.capacity = c.word

/-- the second, -/
structure HasHead (o : Object α) (c : Capacity) : Prop extends HasCapacity o c where
  head : o.header.head = 0

/-- and the third; only `ready` is missing. -/
structure Complete (o : Object α) (c : Capacity) : Prop extends HasHead o c where
  tail : o.header.tail = 0

/-- What a process may rely on at each program point. -/
def PcOk (call : ShmCall) (m : ShmMem α) : ShmPc α → Prop
  | .unlink => ∃ c : Capacity, c.word = call.capacity
  | .shmOpen => ∃ c : Capacity, c.word = call.capacity
  | .ftruncate e => At call m e fun o _ => Blank o
  | .mmap e => At call m e Sized
  | .setCapacity e => At call m e Sized
  | .setHead e => At call m e HasCapacity
  | .setTail e => At call m e HasHead
  | .setReady e => At call m e Complete
  | .writer e => At call m e Sealed
  | .pushing e item pc => At call m e fun o c =>
      Sealed o c ∧ ∃ start,
        ProducerOk (o.channel c) (.running .tryPush item false start pc)
  | .mapSegment e => e < m.objects.length
  | .loadReady e => e < m.objects.length
  | .checkDeadline e => e < m.objects.length
  | .loadCapacity e => ∃ o, m.objects[e]? = some o ∧ o.header.ready = readyMagic
  | .reader e => At call m e Sealed
  | .popping e pc => At call m e fun o c =>
      Sealed o c ∧ ∃ reader, ConsumerOk (o.channel c) (.running reader .tryPop pc)
  -- `open`, if the segment has not been sized
  | .fault a found => a = .ready ∧ call.attaches = true ∧ found = some 0
  | _ => True

/-- The object a process creates or writes. -/
def ShmPc.owned : ShmPc α → Option Nat
  | .ftruncate e => some e
  | .mmap e => some e
  | .setCapacity e => some e
  | .setHead e => some e
  | .setTail e => some e
  | .setReady e => some e
  | .writer e => some e
  | .pushing e _ _ => some e
  | _ => none

/-- The object a process reads. -/
def ShmPc.attached : ShmPc α → Option Nat
  | .reader e => some e
  | .popping e _ => some e
  | _ => none

theorem toNat_mappingSize {capacity : UInt64} (hfits : Fits capacity) :
    (mappingSize capacity).toNat = slotsOffset.toNat + capacity.toNat * 48 := by
  unfold Fits at hfits
  have hmul : (capacity * 48).toNat = capacity.toNat * 48 := by
    rw [UInt64.toNat_mul]
    exact Nat.mod_eq_of_lt (by simp only [UInt64.toNat_ofNat]; omega)
  rw [mappingSize, UInt64.toNat_add, hmul]
  exact Nat.mod_eq_of_lt hfits

/-- An access that stays inside the mapping finds its object. -/
theorem access_eq {m : ShmMem α} {e : Nat} {o : Object α} {capacity : UInt64}
    {a : Access} {f : Object α → ShmMem α × ShmPc α} (ho : m.objects[e]? = some o)
    (hfits : Fits capacity) (hsize : o.size = mappingSize capacity)
    (ha : a.last ≤ slotsOffset.toNat + capacity.toNat * 48) :
    m.access e capacity a f = f o := by
  rw [← toNat_mappingSize hfits] at ha
  simp only [ShmMem.access, ho, hsize, ha, and_self, if_true]

theorem header_inside (a : Access) (capacity : UInt64) (ha : a.length = 8) :
    a.last ≤ slotsOffset.toNat + capacity.toNat * 48 := by
  have hhead : a.last ≤ slotsOffset.toNat := by
    cases a with
    | slot i => cases ha
    | _ => decide
  omega

/-- A mapping made for one capacity has the header of an object made for another. -/
theorem access_header (a : Access) {m : ShmMem α} {e : Nat} {o : Object α}
    {capacity requested : UInt64} {f : Object α → ShmMem α × ShmPc α}
    (ho : m.objects[e]? = some o) (hfits : Fits capacity) (hrequested : Fits requested)
    (hsize : o.size = mappingSize capacity) (ha : a.length = 8) :
    m.access e requested a f = f o := by
  have hobject := header_inside a capacity ha
  have hmapping := header_inside a requested ha
  rw [← toNat_mappingSize hfits, ← hsize] at hobject
  rw [← toNat_mappingSize hrequested] at hmapping
  simp only [ShmMem.access, ho, hobject, hmapping, and_self, if_true]

theorem slot_inside (c : Capacity) (cursor : UInt64) :
    (Access.slot (slotIndex c.word cursor)).last ≤
      slotsOffset.toNat + c.word.toNat * 48 := by
  have hlt : slotIndex c.word cursor < c.word.toNat := (c.slot cursor).isLt
  simp only [Access.last, Access.offset, Access.length]
  omega

/-- Every object has no size or room for the header, so `ready` is outside of an object
without a size only. -/
theorem size_eq_zero {o : Object α} {capacity : UInt64} (h : Blank o ∨ ∃ c, Sealed o c)
    (hfits : Fits capacity)
    (houtside : ¬(Access.ready.last ≤ o.size.toNat ∧
      Access.ready.last ≤ (mappingSize capacity).toNat)) : o.size = 0 := by
  have hroom : ∀ {n : UInt64}, Fits n → Access.ready.last ≤ (mappingSize n).toNat := by
    intro n hn
    rw [toNat_mappingSize hn]
    exact header_inside .ready n rfl
  have hsized : o.size = 0 ∨ ∃ n, Fits n ∧ o.size = mappingSize n := by
    rcases h with hblank | ⟨c, hs⟩
    · exact hblank.sized
    · exact .inr ⟨c.word, hs.fits, hs.size⟩
  refine hsized.resolve_right ?_
  rintro ⟨n, hn, hsize⟩
  exact houtside ⟨hsize ▸ hroom hn, hroom hfits⟩

theorem Sealed.capacity_unique {o : Object α} {c c' : Capacity} (h : Sealed o c)
    (h' : Sealed o c') : c = c' := by
  have hword := h.capacity.symm.trans h'.capacity
  cases c
  cases c'
  cases hword
  rfl

/-- A step on the ring of an object. -/
theorem Sealed.update {o o' : Object α} {c : Capacity} (h : Sealed o c)
    (hready : o'.header.ready = o.header.ready)
    (hcapacity : o'.header.capacity = o.header.capacity) (hsize : o'.size = o.size)
    (hchannel : ChannelInv (o'.channel c)) : Sealed o' c where
  ready := hready.trans h.ready
  capacity := hcapacity.trans h.capacity
  size := hsize.trans h.size
  fits := h.fits
  channel := hchannel

theorem Object.channel_write (o : Object α) (c : Capacity) (head : UInt64) (item : α) :
    Object.channel
        { o with slots := Function.update o.slots (slotIndex c.word head) item } c =
      (o.channel c).write head item := by
  simp only [Object.channel, Channel.write, Channel.mk.injEq, WriterView.mk.injEq,
    and_true]
  funext i
  by_cases hi : i = c.slot head
  · subst hi
    rw [Function.update_self]
    exact Function.update_self ..
  · rw [Function.update_of_ne hi]
    exact Function.update_of_ne (fun h => hi (Fin.ext h)) _ _

/-! ## What a step can do to the memory -/

/-- An object that stays complete. -/
structure Kept (o o' : Object α) : Prop where
  before : o.header.ready = readyMagic
  after : o'.header.ready = readyMagic
  keeps : ∀ c, Sealed o c → Sealed o' c

theorem Sealed.kept {o o' : Object α} {c : Capacity} (h : Sealed o c)
    (h' : Sealed o' c) : Kept o o' where
  before := h.ready
  after := h'.ready
  keeps := fun _ hs => h.capacity_unique hs ▸ h'

/-- What the step of a process at `p` can do to the memory. -/
inductive Change [Inhabited α] (p : ShmPc α) (m : ShmMem α) : ShmMem α → Prop where
  | names (f : ShmName → Option Nat) : Change p m { m with names := f }
  | grow (f : ShmName → Option Nat) : Change p m ⟨m.objects ++ [.empty], f⟩
  | create (e : Nat) (o : Object α) (f : Object α → Object α) : p.owned = some e →
      m.objects[e]? = some o → Blank o → Change p m (m.modify e f)
  | push (e : Nat) (o : Object α) (f : Object α → Object α) : p.owned = some e →
      m.objects[e]? = some o → Kept o (f o) →
      (∀ c q, Sealed o c → ConsumerOk (o.channel c) q → ConsumerOk ((f o).channel c) q) →
      Change p m (m.modify e f)
  | pop (e : Nat) (o : Object α) (f : Object α → Object α) : p.attached = some e →
      m.objects[e]? = some o → Kept o (f o) →
      (∀ c q, Sealed o c → ProducerOk (o.channel c) q → ProducerOk ((f o).channel c) q) →
      Change p m (m.modify e f)

theorem objects_modify {m : ShmMem α} {e : Nat} {f : Object α → Object α} (i : Nat) :
    (m.modify e f).objects[i]? = if e = i then (m.objects[i]?).map f
      else m.objects[i]? := by
  simp only [ShmMem.modify, List.getElem?_modify]
  split <;> simp

theorem objects_modify_self {m : ShmMem α} {e : Nat} {f : Object α → Object α}
    {o : Object α} (ho : m.objects[e]? = some o) :
    (m.modify e f).objects[e]? = some (f o) := by
  rw [objects_modify, if_pos rfl, ho, Option.map_some]

section Frame

variable [Inhabited α] {p q : ShmPc α} {m m' : ShmMem α} {call : ShmCall}

/-- What becomes of one object. -/
theorem Change.object (h : Change p m m') {e : Nat} {o : Object α}
    (ho : m.objects[e]? = some o) :
    ∃ o', m'.objects[e]? = some o' ∧ (o' = o ∨ p.owned = some e ∧ Blank o ∨
      p.owned = some e ∧ Kept o o' ∧
        (∀ c q, Sealed o c → ConsumerOk (o.channel c) q → ConsumerOk (o'.channel c) q) ∨
      p.attached = some e ∧ Kept o o' ∧
        ∀ c q, Sealed o c → ProducerOk (o.channel c) q →
        ProducerOk (o'.channel c) q) := by
  cases h with
  | names f => exact ⟨o, ho, .inl rfl⟩
  | grow f =>
      have hlt := (List.getElem?_eq_some_iff.1 ho).1
      exact ⟨o, by rw [List.getElem?_append_left hlt, ho], .inl rfl⟩
  | create e' o₁ f hown ho₁ hblank =>
      by_cases he : e' = e
      · subst he
        rw [ho₁] at ho
        cases ho
        exact ⟨f o, objects_modify_self ho₁, .inr (.inl ⟨hown, hblank⟩)⟩
      · exact ⟨o, by rw [objects_modify, if_neg he, ho], .inl rfl⟩
  | push e' o₁ f hown ho₁ hkept hcons =>
      by_cases he : e' = e
      · subst he
        rw [ho₁] at ho
        cases ho
        exact ⟨f o, objects_modify_self ho₁, .inr (.inr (.inl ⟨hown, hkept, hcons⟩))⟩
      · exact ⟨o, by rw [objects_modify, if_neg he, ho], .inl rfl⟩
  | pop e' o₁ f hatt ho₁ hkept hprod =>
      by_cases he : e' = e
      · subst he
        rw [ho₁] at ho
        cases ho
        exact ⟨f o, objects_modify_self ho₁, .inr (.inr (.inr ⟨hatt, hkept, hprod⟩))⟩
      · exact ⟨o, by rw [objects_modify, if_neg he, ho], .inl rfl⟩

theorem Change.length_le (h : Change p m m') : m.objects.length ≤ m'.objects.length := by
  cases h with
  | names f => exact Nat.le_refl _
  | grow f => simp
  | create | push | pop => simp [ShmMem.modify]

/-- The step of one process leaves what the others rely on. -/
theorem PcOk.frame (h : PcOk call m q) (hchange : Change p m m')
    (howned : ∀ e, p.owned = some e → q.owned ≠ some e)
    (hattached : ∀ e, p.attached = some e → q.attached ≠ some e) : PcOk call m' q := by
  -- an object that `q` is creating
  have hcreating : ∀ {e : Nat} {P : Object α → Capacity → Prop}, q.owned = some e →
      (∀ o c, P o c → Blank o) → At call m e P → At call m' e P := by
    rintro e P hq hblank ⟨o, c, ho, hc, hP⟩
    obtain ⟨o', ho', rfl | ⟨hp, -⟩ | ⟨hp, -⟩ | ⟨-, hkept, -⟩⟩ := hchange.object ho
    · exact ⟨o', c, ho', hc, hP⟩
    · exact absurd hq (howned e hp)
    · exact absurd hq (howned e hp)
    · exact absurd hkept.before (hblank o c hP).ready
  have hsealed : ∀ {e : Nat}, At call m e Sealed → At call m' e Sealed := by
    rintro e ⟨o, c, ho, hc, hs⟩
    obtain ⟨o', ho', rfl | ⟨-, hblank⟩ | ⟨-, hkept, -⟩ | ⟨-, hkept, -⟩⟩ :=
      hchange.object ho
    · exact ⟨o', c, ho', hc, hs⟩
    · exact absurd hs.ready hblank.ready
    · exact ⟨o', c, ho', hc, hkept.keeps c hs⟩
    · exact ⟨o', c, ho', hc, hkept.keeps c hs⟩
  cases q with
  | ftruncate e => exact hcreating rfl (fun _ _ h => h) h
  | mmap e | setCapacity e => exact hcreating rfl (fun _ _ h => h.toBlank) h
  | setHead e => exact hcreating rfl (fun _ _ h => h.toBlank) h
  | setTail e => exact hcreating rfl (fun _ _ h => h.toBlank) h
  | setReady e => exact hcreating rfl (fun _ _ h => h.toBlank) h
  | writer e | reader e => exact hsealed h
  | pushing e item pc =>
      obtain ⟨o, c, ho, hc, hs, start, hok⟩ := h
      obtain ⟨o', ho', rfl | ⟨hp, -⟩ | ⟨hp, -⟩ | ⟨-, hkept, hprod⟩⟩ := hchange.object ho
      · exact ⟨o', c, ho', hc, hs, start, hok⟩
      · exact absurd rfl (howned e hp)
      · exact absurd rfl (howned e hp)
      · exact ⟨o', c, ho', hc, hkept.keeps c hs, start, hprod c _ hs hok⟩
  | popping e pc =>
      obtain ⟨o, c, ho, hc, hs, reader, hok⟩ := h
      obtain ⟨o', ho', rfl | ⟨-, hblank⟩ | ⟨-, hkept, hcons⟩ | ⟨hp, -⟩⟩ :=
        hchange.object ho
      · exact ⟨o', c, ho', hc, hs, reader, hok⟩
      · exact absurd hs.ready hblank.ready
      · exact ⟨o', c, ho', hc, hkept.keeps c hs, reader, hcons c _ hs hok⟩
      · exact absurd rfl (hattached e hp)
  | mapSegment e | loadReady e
  | checkDeadline e => exact Nat.lt_of_lt_of_le h hchange.length_le
  | loadCapacity e =>
      obtain ⟨o, ho, hready⟩ := h
      obtain ⟨o', ho', rfl | ⟨-, hblank⟩ | ⟨-, hkept, -⟩ | ⟨-, hkept, -⟩⟩ :=
        hchange.object ho
      · exact ⟨o', ho', hready⟩
      · exact absurd hready hblank.ready
      · exact ⟨o', ho', hkept.after⟩
      · exact ⟨o', ho', hkept.after⟩
  | _ => exact h

end Frame

/-! ## The step of one process -/

theorem ShmInv.modify {m : ShmMem α} (h : ShmInv m) {e : Nat} {o : Object α}
    {f : Object α → Object α} (ho : m.objects[e]? = some o)
    (hnew : Blank (f o) ∨ ∃ c, Sealed (f o) c) : ShmInv (m.modify e f) where
  names := by
    intro name i hi
    have := h.names name i hi
    simpa [ShmMem.modify] using this
  objects := by
    intro i o' ho'
    rw [objects_modify] at ho'
    split at ho'
    · next heq =>
      subst heq
      rw [ho] at ho'
      cases ho'
      exact hnew
    · exact h.objects i o' ho'

theorem ShmInv.unlink {m : ShmMem α} (h : ShmInv m) (name : ShmName) :
    ShmInv { m with names := Function.update m.names name none } where
  names := by
    intro name' e he
    dsimp only at he ⊢
    by_cases hname : name' = name
    · subst hname
      rw [Function.update_self] at he
      cases he
    · rw [Function.update_of_ne hname] at he
      exact h.names name' e he
  objects := h.objects

/-- The ring of an object that is complete is empty. -/
theorem Complete.seal {o : Object α} {c : Capacity} (h : Complete o c)
    (hfits : Fits c.word) :
    Sealed (o.setHeader fun h => { h with ready := readyMagic }) c where
  ready := rfl
  capacity := h.capacity
  size := h.size
  fits := hfits
  channel := by
    have hpushed : o.pushed = [] := h.pushed
    have hpopped : o.popped = [] := h.popped
    have hchannel : (o.setHeader fun h => { h with ready := readyMagic }).channel c =
        Channel.fresh (fun i => o.slots i) := by
      simp only [Object.channel, Object.setHeader, Channel.fresh, h.head, h.tail,
        hpushed, hpopped]
    rw [hchannel]
    exact .fresh _

section Own

variable [Inhabited α] {p p' : ShmPc α} {m m' : ShmMem α} {call : ShmCall}

/-- What a step of a process at `p` comes to. -/
structure Outcome (call : ShmCall) (m : ShmMem α) (p : ShmPc α) (m' : ShmMem α)
    (p' : ShmPc α) : Prop where
  inv : ShmInv m'
  ok : PcOk call m' p'
  change : Change p m m'
  owned : ∀ e, p'.owned = some e → p.owned = some e ∨ m.objects.length ≤ e
  attached : ∀ e, p'.attached = some e → p.attached = some e ∨
    p = .loadCapacity e ∧ ∃ o, m.objects[e]? = some o ∧ o.header.capacity = call.capacity

theorem blank_empty : Blank (Object.empty : Object α) where
  ready := by
    show (0 : UInt64) ≠ readyMagic
    decide
  pushed := rfl
  popped := rfl
  sized := .inl rfl

theorem ShmInv.grow (h : ShmInv m) (name : ShmName) :
    ShmInv ⟨m.objects ++ [.empty],
      Function.update m.names name (some m.objects.length)⟩ where
  names := by
    intro name' e he
    dsimp only at he
    simp only [List.length_append, List.length_singleton]
    by_cases hname : name' = name
    · subst hname
      rw [Function.update_self] at he
      cases he
      omega
    · rw [Function.update_of_ne hname] at he
      have := h.names name' e he
      omega
  objects := by
    intro e o ho
    dsimp only at ho
    by_cases he : e < m.objects.length
    · rw [List.getElem?_append_left he] at ho
      exact h.objects e o ho
    · rw [List.getElem?_append_right (by omega)] at ho
      cases List.mem_singleton.1 (List.mem_of_getElem? ho)
      exact .inl blank_empty

/-- A step that touches no shared memory. -/
theorem Outcome.still (hinv : ShmInv m) (hok : PcOk call m p')
    (howned : ∀ e, p'.owned = some e → p.owned = some e)
    (hattached : ∀ e, p'.attached = some e → p.attached = some e ∨ p = .loadCapacity e ∧
      ∃ o, m.objects[e]? = some o ∧ o.header.capacity = call.capacity) :
    Outcome call m p m p' where
  inv := hinv
  ok := hok
  change := .names m.names
  owned := fun e he => .inl (howned e he)
  attached := hattached

/-- A step after which the process holds what it held. -/
theorem Outcome.quiet (hinv : ShmInv m) (hok : PcOk call m p')
    (howned : p'.owned = p.owned) (hattached : p'.attached = p.attached) :
    Outcome call m p m p' :=
  .still hinv hok (fun _ h => howned ▸ h) (fun _ h => .inl (hattached ▸ h))

/-- A step of the creation. -/
theorem Outcome.creating (hinv : ShmInv m) {e : Nat} {o : Object α} {c : Capacity}
    {f : Object α → Object α} {P : Object α → Capacity → Prop} (hp : p.owned = some e)
    (hp' : p'.owned = some e) (hatt : p'.attached = none) (ho : m.objects[e]? = some o)
    (hc : c.word = call.capacity) (hblank : Blank o)
    (hnew : Blank (f o) ∨ ∃ c, Sealed (f o) c) (hP : P (f o) c)
    (hok : At call (m.modify e f) e P → PcOk call (m.modify e f) p') :
    Outcome call m p (m.modify e f) p' where
  inv := hinv.modify ho hnew
  ok := hok ⟨f o, c, objects_modify_self ho, hc, hP⟩
  change := .create e o f hp ho hblank
  owned := fun i hi => .inl (hp.trans (hp'.symm.trans hi))
  attached := fun i hi => by
    rw [hatt] at hi
    cases hi

/-- A step of a push on the object. -/
theorem Outcome.push (hinv : ShmInv m) {e : Nat} {o : Object α} {c : Capacity}
    {f : Object α → Object α} (hp : p.owned = some e) (hp' : p'.owned = some e)
    (hatt : p'.attached = none) (ho : m.objects[e]? = some o) (h : Sealed o c)
    (h' : Sealed (f o) c)
    (hcons : ∀ q, ConsumerOk (o.channel c) q → ConsumerOk ((f o).channel c) q)
    (hok : PcOk call (m.modify e f) p') : Outcome call m p (m.modify e f) p' where
  inv := hinv.modify ho (.inr ⟨c, h'⟩)
  ok := hok
  change := by
    refine .push e o f hp ho (h.kept h') ?_
    intro c' q hs hq
    cases h.capacity_unique hs
    exact hcons q hq
  owned := fun i hi => .inl (hp.trans (hp'.symm.trans hi))
  attached := fun i hi => by
    rw [hatt] at hi
    cases hi

theorem attemptPush_outcome {e : Nat} {item : α} {pc : PushPc} (hinv : ShmInv m)
    (hok : PcOk call m (.pushing e item pc))
    (hstep : attemptPush call.capacity m e item pc = some (m', p')) :
    Outcome call m (.pushing e item pc) m' p' := by
  obtain ⟨o, c, ho, hc, hs, start, hprod⟩ := hok
  rw [← hc] at hstep
  -- the same step of the ring
  let s : State c α :=
    ⟨o.channel c, false, 0, .running .tryPush item false start pc, .closed, []⟩
  have hs₀ : Inv s := ⟨hs.channel, hprod, trivial, fun _ h => by cases h⟩
  have hring : Inv (pushStep s .tryPush item false start pc) := hs₀.pushStep rfl
  cases pc with
  | loadHead =>
      simp only [attemptPush, access_eq ho hs.fits hs.size (header_inside .head _ rfl)]
        at hstep
      cases hstep
      exact .quiet hinv ⟨o, c, ho, hc, hs, start, hring.producer⟩ rfl rfl
  | loadTail head =>
      simp only [attemptPush, access_eq ho hs.fits hs.size (header_inside .tail _ rfl)]
        at hstep
      cases hstep
      split
      · exact .quiet hinv ⟨o, c, ho, hc, hs⟩ rfl rfl
      · next hroom =>
        have hroom : ¬c.word ≤ head - s.channel.tail := hroom
        rw [pushStep, if_neg hroom] at hring
        exact .quiet hinv ⟨o, c, ho, hc, hs, start, hring.producer⟩ rfl rfl
  | write head =>
      simp only [attemptPush, access_eq ho hs.fits hs.size (slot_inside c head)] at hstep
      cases hstep
      have hchannel := o.channel_write c head item
      have hs' : Sealed
          { o with slots := Function.update o.slots (slotIndex c.word head) item } c :=
        hs.update rfl rfl rfl (hchannel ▸ hring.channel)
      refine .push hinv rfl rfl rfl ho hs hs' ?_ ?_
      · intro q hq
        rw [hchannel]
        exact hq.write _ _
      · exact ⟨_, c, objects_modify_self ho, hc, hs', start, hchannel ▸ hring.producer⟩
  | storeHead head =>
      simp only [attemptPush, access_eq ho hs.fits hs.size (header_inside .head _ rfl)]
        at hstep
      cases hstep
      have hs' : Sealed { o.setHeader (fun h => { h with head := head + 1 }) with
          pushed := o.pushed ++ [item] } c := hs.update rfl rfl rfl hring.channel
      refine .push hinv rfl rfl rfl ho hs hs' ?_ ⟨_, c, objects_modify_self ho, hc, hs'⟩
      intro q hq
      exact hq.storeHead head item
  | countFull | checkCancel => cases hstep

theorem writerStep_outcome {name : ShmName} {capacity : UInt64} {force : Bool}
    {ch : ShmChoice α} (hinv : ShmInv m) (hfits : Fits capacity)
    (hok : PcOk (.create name capacity force) m p)
    (hfree : p = .shmOpen → force = true → m.names name = none)
    (hstep : writerStep name capacity force ch m p = some (m', p')) :
    Outcome (.create name capacity force) m p m' p' := by
  cases p with
  | start =>
      simp only [writerStep] at hstep
      split at hstep
      · cases hstep
        exact .quiet hinv trivial rfl rfl
      · next hpow =>
        have hc : ∃ c : Capacity, c.word = capacity := ⟨⟨capacity, not_not.1 hpow⟩, rfl⟩
        split at hstep
        · cases hstep
          exact .quiet hinv trivial rfl rfl
        · cases hstep
          cases force with
          | true => exact .quiet hinv hc rfl rfl
          | false => exact .quiet hinv hc rfl rfl
  | unlink =>
      cases hstep
      cases hanswer : ch.answer with
      | none =>
          exact { inv := hinv.unlink name, ok := hok, change := .names _
                  owned := fun _ h => .inl h, attached := fun _ h => .inl h }
      | some err => exact .quiet hinv hok rfl rfl
  | shmOpen =>
      simp only [writerStep] at hstep
      split at hstep
      · cases hstep
        exact .quiet hinv trivial rfl rfl
      · next e hanswer hname =>
        cases hforce : force with
        | true =>
            rw [hfree rfl hforce] at hname
            cases hname
        | false =>
            rw [hforce] at hstep
            cases hstep
            exact .quiet hinv trivial rfl rfl
      · cases hstep
        obtain ⟨c, hc⟩ := hok
        refine
          { inv := hinv.grow name
            ok := ?_
            change := .grow _
            owned := ?_
            attached := ?_ }
        · exact ⟨.empty, c, by simp, hc, blank_empty⟩
        · intro e he
          cases he
          exact .inr (Nat.le_refl _)
        · exact fun _ h => .inl h
  | ftruncate e =>
      simp only [writerStep] at hstep
      split at hstep
      · cases hstep
        exact .still hinv trivial (fun _ h => by cases h) (fun _ h => by cases h)
      · cases hstep
        obtain ⟨o, c, ho, hc, hblank⟩ := hok
        have hsized : Sized (o.resize (mappingSize capacity)) c :=
          ⟨⟨hblank.ready, hblank.pushed, hblank.popped, .inr ⟨capacity, hfits, rfl⟩⟩,
            by rw [hc]; rfl⟩
        exact .creating hinv rfl rfl rfl ho hc hblank (.inl hsized.toBlank) hsized id
  | mmap e =>
      simp only [writerStep] at hstep
      split at hstep
      · cases hstep
        exact .still hinv trivial (fun _ h => by cases h) (fun _ h => by cases h)
      · cases hstep
        exact .quiet hinv hok rfl rfl
  | setCapacity e =>
      obtain ⟨o, c, ho, hc, h⟩ := hok
      have hc : c.word = capacity := hc
      subst hc
      simp only [writerStep, access_eq ho hfits h.size (header_inside .capacity _ rfl)]
        at hstep
      cases hstep
      have hnext : HasCapacity (o.setHeader fun h => { h with capacity := c.word }) c :=
        ⟨⟨⟨h.ready, h.pushed, h.popped, h.sized⟩, h.size⟩, rfl⟩
      exact .creating hinv rfl rfl rfl ho rfl h.toBlank (.inl hnext.toBlank) hnext id
  | setHead e =>
      obtain ⟨o, c, ho, hc, h⟩ := hok
      have hc : c.word = capacity := hc
      subst hc
      simp only [writerStep, access_eq ho hfits h.size (header_inside .head _ rfl)]
        at hstep
      cases hstep
      have hnext : HasHead (o.setHeader fun h => { h with head := 0 }) c :=
        ⟨⟨⟨⟨h.ready, h.pushed, h.popped, h.sized⟩, h.size⟩, h.capacity⟩, rfl⟩
      exact .creating hinv rfl rfl rfl ho rfl h.toBlank (.inl hnext.toBlank) hnext id
  | setTail e =>
      obtain ⟨o, c, ho, hc, h⟩ := hok
      have hc : c.word = capacity := hc
      subst hc
      simp only [writerStep, access_eq ho hfits h.size (header_inside .tail _ rfl)]
        at hstep
      cases hstep
      have hnext : Complete (o.setHeader fun h => { h with tail := 0 }) c :=
        ⟨⟨⟨⟨⟨h.ready, h.pushed, h.popped, h.sized⟩, h.size⟩, h.capacity⟩, h.head⟩, rfl⟩
      exact .creating hinv rfl rfl rfl ho rfl h.toBlank (.inl hnext.toBlank) hnext id
  | setReady e =>
      obtain ⟨o, c, ho, hc, h⟩ := hok
      have hc : c.word = capacity := hc
      subst hc
      simp only [writerStep, access_eq ho hfits h.size (header_inside .ready _ rfl)]
        at hstep
      cases hstep
      have hnext := h.seal hfits
      exact .creating hinv rfl rfl rfl ho rfl h.toBlank (.inr ⟨c, hnext⟩) hnext id
  | writer e =>
      simp only [writerStep] at hstep
      split at hstep
      · cases hstep
        obtain ⟨o, c, ho, hc, h⟩ := hok
        exact .quiet hinv ⟨o, c, ho, hc, h, _, rfl⟩ rfl rfl
      · cases hstep
        exact .still hinv trivial (fun _ h => by cases h) (fun _ h => .inl h)
  | pushing e item pc => exact attemptPush_outcome hinv hok hstep
  | unlinkName =>
      cases hstep
      exact { inv := hinv.unlink name, ok := trivial, change := .names _
              owned := fun _ h => .inl h, attached := fun _ h => .inl h }
  | _ => cases hstep

/-- A step of a pop on the object. -/
theorem attemptPop_outcome {e : Nat} {pc : PopPc α} (hinv : ShmInv m)
    (hok : PcOk call m (.popping e pc))
    (hstep : attemptPop call.capacity m e pc = (m', p')) :
    Outcome call m (.popping e pc) m' p' := by
  obtain ⟨o, c, ho, hc, hs, reader, hcons⟩ := hok
  rw [← hc] at hstep
  let s : State c α := ⟨o.channel c, false, 0, .idle, .running reader .tryPop pc, []⟩
  have hs₀ : Inv s := ⟨hs.channel, trivial, hcons, fun _ h => by cases h⟩
  have hring : Inv (popStep s reader .tryPop pc) := hs₀.popStep rfl
  cases pc with
  | loadTail =>
      simp only [attemptPop, access_eq ho hs.fits hs.size (header_inside .tail _ rfl)]
        at hstep
      cases hstep
      exact .quiet hinv ⟨o, c, ho, hc, hs, reader, hring.consumer⟩ rfl rfl
  | loadHead tail =>
      simp only [attemptPop, access_eq ho hs.fits hs.size (header_inside .head _ rfl)]
        at hstep
      cases hstep
      split
      · exact .quiet hinv ⟨o, c, ho, hc, hs⟩ rfl rfl
      · next hsome =>
        have hsome : s.channel.head ≠ tail := hsome
        rw [popStep, if_neg hsome] at hring
        exact .quiet hinv ⟨o, c, ho, hc, hs, reader, hring.consumer⟩ rfl rfl
  | read tail =>
      simp only [attemptPop, access_eq ho hs.fits hs.size (slot_inside c tail)] at hstep
      cases hstep
      have hconsumer := hring.consumer
      simp only [popStep, reader.slot_eq] at hconsumer
      exact .quiet hinv ⟨o, c, ho, hc, hs, reader, hconsumer⟩ rfl rfl
  | storeTail tail item =>
      simp only [attemptPop, access_eq ho hs.fits hs.size (header_inside .tail _ rfl)]
        at hstep
      cases hstep
      have hs' : Sealed { o.setHeader (fun h => { h with tail := tail + 1 }) with
          popped := o.popped ++ [item] } c := hs.update rfl rfl rfl hring.channel
      exact {
        inv := hinv.modify ho (.inr ⟨c, hs'⟩)
        ok := ⟨_, c, objects_modify_self ho, hc, hs'⟩
        change := by
          refine .pop e o _ rfl ho (hs.kept hs') ?_
          intro c' q h hq
          cases hs.capacity_unique h
          exact hq.storeTail tail item
        owned := fun _ h => .inl h
        attached := fun _ h => .inl h }

theorem readerStep_outcome {name : ShmName} {capacity : UInt64} {ch : ShmChoice α}
    (hinv : ShmInv m) (hfits : Fits capacity) (hok : PcOk (.attach name capacity) m p)
    (hstep : readerStep name capacity ch m p = some (m', p')) :
    Outcome (.attach name capacity) m p m' p' := by
  cases p with
  | start =>
      simp only [readerStep] at hstep
      split at hstep
      · cases hstep
        exact .quiet hinv trivial rfl rfl
      · split at hstep <;> cases hstep <;>
          exact .quiet hinv trivial rfl rfl
  | lookup =>
      simp only [readerStep] at hstep
      split at hstep
      · cases hstep
        exact .quiet hinv trivial rfl rfl
      · cases hstep
        exact .quiet hinv trivial rfl rfl
      · next hname =>
        cases hstep
        exact .quiet hinv (hinv.names _ _ hname) rfl rfl
  | mapSegment e =>
      simp only [readerStep] at hstep
      split at hstep
      · cases hstep
        exact .quiet hinv trivial rfl rfl
      · cases hstep
        exact .quiet hinv hok rfl rfl
  | loadReady e =>
      have ho := List.getElem?_eq_getElem hok
      simp only [readerStep, ShmMem.access, ho] at hstep
      split at hstep
      · cases hstep
        split
        · next hready =>
          exact .quiet hinv ⟨_, ho, hready⟩ rfl rfl
        · exact .quiet hinv hok rfl rfl
      · next houtside =>
        cases hstep
        have hzero := size_eq_zero (hinv.objects e _ ho) hfits houtside
        exact .quiet hinv ⟨rfl, rfl, congrArg some hzero⟩ rfl rfl
  | checkDeadline e =>
      cases hstep
      split
      · exact .quiet hinv trivial rfl rfl
      · exact .quiet hinv hok rfl rfl
  | loadCapacity e =>
      obtain ⟨o, ho, hready⟩ := hok
      obtain ⟨c, hs⟩ :=
        (hinv.objects e o ho).resolve_left fun hblank => hblank.ready hready
      simp only [readerStep, access_header .capacity ho hs.fits hfits hs.size rfl]
        at hstep
      cases hstep
      split
      · next hsame =>
        exact .still hinv ⟨o, c, ho, hs.capacity.symm.trans hsame, hs⟩ (fun _ h => h)
          (fun _ h => .inr (by cases h; exact ⟨rfl, o, ho, hsame⟩))
      · exact .quiet hinv trivial rfl rfl
  | reader e =>
      simp only [readerStep] at hstep
      split at hstep
      · cases hstep
        obtain ⟨o, c, ho, hc, hs⟩ := hok
        exact .quiet hinv ⟨o, c, ho, hc, hs, ⟨c.word, rfl⟩, trivial⟩ rfl rfl
      · cases hstep
        exact .still hinv trivial (fun _ h => h) (fun _ h => by cases h)
  | popping e pc => exact attemptPop_outcome hinv hok (Option.some.inj hstep)
  | _ => cases hstep

theorem shmNext_outcome {call : τ → ShmCall} {t : τ} {ch : ShmChoice α} (hinv : ShmInv m)
    (hfits : Fits (call t).capacity) (hok : PcOk (call t) m p)
    (hfree : p = .shmOpen → (call t).force = true → m.names (call t).name = none)
    (hstep : shmNext call t ch m p = some (m', p')) : Outcome (call t) m p m' p' := by
  unfold shmNext at hstep
  split at hstep
  · cases hstep
    exact .still hinv trivial (fun _ h => by cases h) (fun _ h => by cases h)
  · cases hcall : call t with
    | create name capacity force =>
        rw [hcall] at hstep hfits hok hfree
        exact writerStep_outcome hinv hfits hok hfree hstep
    | attach name capacity =>
        rw [hcall] at hstep hfits hok
        exact readerStep_outcome hinv hfits hok hstep

end Own

theorem PcOk.owned_lt {call : ShmCall} {m : ShmMem α} {p : ShmPc α} (h : PcOk call m p)
    {e : Nat} (he : p.owned = some e) : e < m.objects.length := by
  cases p with
  | ftruncate | mmap | setCapacity | setHead | setTail | setReady | writer | pushing =>
      cases he
      obtain ⟨o, c, ho, -⟩ := h
      exact (List.getElem?_eq_some_iff.1 ho).1
  | _ => cases he

theorem PcOk.sealed_of_attached {call : ShmCall} {m : ShmMem α} {p : ShmPc α}
    (h : PcOk call m p) {e : Nat} (he : p.attached = some e) : At call m e Sealed := by
  cases p with
  | reader e =>
      cases he
      exact h
  | popping e pc =>
      cases he
      obtain ⟨o, c, ho, hc, hs, -⟩ := h
      exact ⟨o, c, ho, hc, hs⟩
  | _ => cases he

/-! ## Any number of processes -/

section Runs

variable [Inhabited α] [DecidableEq τ] [Fintype τ] {call : τ → ShmCall}
  {w w' : World (ShmMem α) (ShmPc α) τ}

/-- The two rules for the operators: a `create_force` finds the name free, and a reader
is the only one of its segment. -/
def disciplined (call : τ → ShmCall) (w : World (ShmMem α) (ShmPc α) τ)
    (a : Turn τ (ShmChoice α)) : Bool :=
  match w.pc a.thread with
  | .shmOpen => !(call a.thread).force || (w.mem.names (call a.thread).name).isNone
  | .loadCapacity e =>
      (w.mem.objects[e]?).all (fun o => o.header.capacity ≠ (call a.thread).capacity) ||
        decide (∀ u, (w.pc u).attached ≠ some e)
  | _ => true

/-- Every process is where it may be, and no object has two writers or two readers. -/
structure AttachInv (call : τ → ShmCall) (w : World (ShmMem α) (ShmPc α) τ) : Prop where
  mem : ShmInv w.mem
  pcs : ∀ t, PcOk (call t) w.mem (w.pc t)
  owners : ∀ t u e, (w.pc t).owned = some e → (w.pc u).owned = some e → t = u
  readers : ∀ t u e, (w.pc t).attached = some e → (w.pc u).attached = some e → t = u

omit [Inhabited α] [DecidableEq τ] [Fintype τ] in
theorem AttachInv.start : AttachInv call (shmStart : World (ShmMem α) (ShmPc α) τ) where
  mem := by
    refine ⟨fun _ _ h => ?_, fun _ _ h => ?_⟩ <;> cases h
  pcs := fun _ => trivial
  owners := fun _ _ _ h => by cases h
  readers := fun _ _ _ h => by cases h

theorem AttachInv.step (hfits : ∀ t, Fits (call t).capacity) {a : Turn τ (ShmChoice α)}
    (hdisc : disciplined call w a = true) (h : AttachInv call w)
    (hstep : turn (shmNext call) w a = some w') : AttachInv call w' := by
  obtain ⟨m, p, hnext, rfl⟩ := turn_eq_some.1 hstep
  have hfree : w.pc a.thread = .shmOpen → (call a.thread).force = true →
      w.mem.names (call a.thread).name = none := by
    intro hpc hforce
    simp only [disciplined, hpc, hforce, Bool.not_true, Bool.false_or,
      Option.isNone_iff_eq_none] at hdisc
    exact hdisc
  have hout := shmNext_outcome h.mem (hfits _) (h.pcs _) hfree hnext
  have howners : ∀ u e, u ≠ a.thread → p.owned = some e → (w.pc u).owned ≠ some e := by
    intro u e hu hp hown
    rcases hout.owned e hp with hold | hnew
    · exact hu (h.owners _ _ e hown hold)
    · exact absurd ((h.pcs u).owned_lt hown) (by omega)
  have hreaders : ∀ u e, u ≠ a.thread → p.attached = some e →
      (w.pc u).attached ≠ some e := by
    intro u e hu hp hatt
    rcases hout.attached e hp with hold | ⟨hload, o, ho, hsame⟩
    · exact hu (h.readers _ _ e hatt hold)
    · simp only [disciplined, hload, ho, hsame, Option.all_some, ne_eq,
        not_true_eq_false, decide_false, Bool.false_or, decide_eq_true_eq] at hdisc
      exact hdisc u hatt
  refine ⟨hout.inv, ?_, ?_, ?_⟩
  · intro u
    by_cases hu : u = a.thread
    · subst hu
      simpa only [Function.update_self] using hout.ok
    · simp only [Function.update_of_ne hu]
      refine (h.pcs u).frame hout.change ?_ ?_
      · exact fun e hp hown => hu (h.owners _ _ e hown hp)
      · exact fun e hp hatt => hu (h.readers _ _ e hatt hp)
  · exact exclusive_update h.owners howners
  · exact exclusive_update h.readers hreaders

/-- Any number of processes create, open, use and drop rings in any order, and any of
them may be killed at any point.  The only fault is a load of `ready` by an `open` that
has found a segment without a size.  No two processes write one segment; a reader is
attached to a segment that is complete and of its own capacity; and every segment is a
bounded queue between its writer and its readers. -/
theorem shared_segments_are_safe (call : τ → ShmCall)
    (hfits : ∀ t, Fits (call t).capacity) (acts : List (Turn τ (ShmChoice α)))
    (w : World (ShmMem α) (ShmPc α) τ)
    (hrun : exec (turn (shmNext call)) shmStart acts = some w)
    (hdisc : meets (turn (shmNext call)) (disciplined call) shmStart acts = true) :
    (∀ t a found, w.pc t = .fault a found →
      a = .ready ∧ (call t).attaches = true ∧ found = some 0) ∧
    (∀ t u e, (w.pc t).owned = some e → (w.pc u).owned = some e → t = u) ∧
    (∀ t (e : Nat), (w.pc t).attached = some e → ∃ o, w.mem.objects[e]? = some o ∧
      o.header.ready = readyMagic ∧ o.header.capacity = (call t).capacity ∧
      o.size = mappingSize (call t).capacity) ∧
    ∀ (e : Nat) o, w.mem.objects[e]? = some o → o.popped <+: o.pushed ∧
      o.pushed.length ≤ o.popped.length + o.header.capacity.toNat := by
  have h : AttachInv call w :=
    exec_invariant_of_meets (fun s a t hd h hstep => h.step hfits hd hstep) hdisc
      hrun .start
  refine ⟨?_, h.owners, ?_, ?_⟩
  · intro t a found hpc
    have hok := h.pcs t
    rw [hpc] at hok
    exact hok
  · intro t e hatt
    obtain ⟨o, c, ho, hc, hs⟩ := (h.pcs t).sealed_of_attached hatt
    rw [← hc]
    exact ⟨o, ho, hs.ready, hs.capacity, hs.size⟩
  · intro e o ho
    rcases h.mem.objects e o ho with hblank | ⟨c, hs⟩
    · rw [hblank.pushed, hblank.popped]
      exact ⟨List.prefix_rfl, Nat.zero_le _⟩
    · rw [hs.capacity]
      exact ⟨hs.channel.fifo, hs.channel.bounded⟩

end Runs

/-- A reader that attaches while the segment is being created, one with another capacity,
and a writer that is killed. -/
theorem shared_segments_are_safe_handshake :
    let call : Fin 3 → ShmCall := fun t =>
      if t = 0 then .create ['/', 'r'] 2 false
      else if t = 1 then .attach ['/', 'r'] 2 else .attach ['/', 'r'] 4
    let go (t : Fin 3) (n : Nat) : List (Turn (Fin 3) (ShmChoice Nat)) :=
      List.replicate n ⟨t, false, none, false, some 7⟩
    let acts := go 0 3 ++ go 1 5 ++ go 0 10 ++ go 1 7 ++ go 2 5 ++
      [⟨0, true, none, false, none⟩]
    ∃ w, exec (turn (shmNext call)) shmStart acts = some w ∧
      w.pc 1 = .reader 0 ∧ w.pc 2 = .mismatch 4 2 ∧
      (∃ o, w.mem.objects[0]? = some o ∧ o.header.ready = readyMagic ∧
        o.header.capacity = 2 ∧
        o.size = mappingSize 2) ∧
      ∀ (e : Nat) o, w.mem.objects[e]? = some o → o.popped <+: o.pushed := by
  intro call go acts
  have hdisc : meets (turn (shmNext call)) (disciplined call) shmStart acts = true := by
    decide +kernel
  obtain ⟨w, hrun, hw⟩ := exists_exec (turn (shmNext call)) shmStart acts
    (fun w => w.pc 1 = .reader 0 ∧ w.pc 2 = .mismatch 4 2) (by decide +kernel)
  obtain ⟨hone, htwo⟩ := of_decide_eq_true hw
  obtain ⟨-, -, hattached, hqueue⟩ :=
    shared_segments_are_safe call (by decide) acts w hrun hdisc
  exact ⟨w, hrun, hone, htwo, hattached 1 0 (by rw [hone]; rfl),
    fun e o ho => (hqueue e o ho).1⟩

/-- The one fault: `open` between the `shm_open` and the `ftruncate` of the creator. -/
example :
    let call : Bool → ShmCall := fun writes =>
      if writes then .create ['/', 'r'] 2 false else .attach ['/', 'r'] 2
    let go (t : Bool) (n : Nat) : List (Turn Bool (ShmChoice Nat)) :=
      List.replicate n ⟨t, false, none, false, none⟩
    (exec (turn (shmNext call)) shmStart (go true 2 ++ go false 4)).map
      (fun w => w.pc false) =
      some (.fault .ready (some 0)) := by
  decide +kernel

end Candlestore.Shm
