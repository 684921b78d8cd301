import Mathlib.Data.Set.Insert
import Candlestore.Candle

/-!
# Creating a shared-memory segment

`ShmRingWriter::create_inner` opens a segment exclusively, sizes it, maps it and
initialises its header.  What the system calls answer is an input here, so that every
exit can be taken.  The first call links the name; the exits after it close the file
descriptor and nothing else, and only the `Drop` of a writer ever unlinks.
-/

namespace Candlestore.Shm

/-- The name of a segment, a Rust `str` as its characters. -/
abbrev ShmName := List Char

/-- The errors of `create` and `open` that this file tells apart. -/
inductive ShmError where
  | alreadyExists
  | invalidInput
  | os (errno : Nat)
  deriving DecidableEq, Repr

/-- The fields of the header at the start of a segment. -/
structure ShmHeader where
  ready : UInt64
  capacity : UInt64
  head : UInt64
  tail : UInt64
  deriving DecidableEq, Repr

/-- A segment, by its size and its header. -/
structure Segment where
  size : UInt64
  header : ShmHeader
  deriving DecidableEq, Repr

/-- A segment just created has no bytes, and reads as zeros once it is given some. -/
def Segment.empty : Segment := ⟨0, ⟨0, 0, 0, 0⟩⟩

/-- The segments of the system by name. -/
abbrev Segments := ShmName → Option Segment

/-- The names that exist. -/
def Segments.linked (shm : Segments) : Set ShmName := {name | (shm name).isSome}

/-- Change the segment of a name. -/
def Segments.modify (shm : Segments) (name : ShmName) (f : Segment → Segment) :
    Segments :=
  Function.update shm name ((shm name).map f)

/-- What the system calls of one `create_inner` answer; `none` is success.  `unlinks`
says whether `shm_unlink`, whose answer is ignored, removes the name. -/
structure CreateIo where
  unlinks : Bool
  shmOpen : Option ShmError
  ftruncate : Option ShmError
  mmap : Option ShmError
  deriving DecidableEq, Repr

/-- `ShmRingWriter`, without the mapped pages. -/
structure ShmRingWriter where
  mapSize : UInt64
  name : ShmName
  capacity : UInt64
  pushFull : UInt64
  deriving DecidableEq, Repr

/-- What `create` returns. -/
inductive CreateResult where
  /-- The assertion on the capacity. -/
  | panic
  | err (e : ShmError)
  | ok (writer : ShmRingWriter)
  deriving DecidableEq, Repr

/-- `READY_MAGIC`. -/
def readyMagic : UInt64 := 0x00CAFECA1D1E5748

/-- `SLOTS_OFFSET`: the size of the header. -/
def slotsOffset : UInt64 := 384

/-- `mapping_size`, for candles of 48 bytes. -/
def mappingSize (capacity : UInt64) : UInt64 := slotsOffset + capacity * 48

/-- The byte that `CString::new` refuses. -/
def nul : Char := Char.ofNat 0

/-- `shm_open` with `O_CREAT`, and with `O_EXCL` if `excl`. -/
def shmOpen (shm : Segments) (name : ShmName) (excl : Bool) (answer : Option ShmError) :
    Except ShmError Segments :=
  match answer, shm name with
  | some e, _ => .error e
  | none, none => .ok (Function.update shm name (some .empty))
  | none, some _ => if excl then .error .alreadyExists else .ok shm

/-- `create_inner`, one system call after the other.  A call that fails ends it, and
what has been done by then stays. -/
def createInner (shm : Segments) (name : ShmName) (capacity : UInt64) (force : Bool)
    (io : CreateIo) : CreateResult × Segments :=
  if capacity.toNat ≠ 2 ^ capacity.toNat.log2 then (.panic, shm)
  else if nul ∈ name then (.err .invalidInput, shm)
  else
    let shm := if force && io.unlinks then Function.update shm name none else shm
    match shmOpen shm name (!force) io.shmOpen with
    | .error e => (.err e, shm)
    | .ok shm =>
        match io.ftruncate with
        | some e => (.err e, shm)
        | none =>
            let shm := shm.modify name fun seg =>
              { seg with size := mappingSize capacity }
            match io.mmap with
            | some e => (.err e, shm)
            | none =>
                (.ok ⟨mappingSize capacity, name, capacity, 0⟩,
                  shm.modify name fun seg =>
                    { seg with header := ⟨readyMagic, capacity, 0, 0⟩ })

/-- `create`: the name has to be free. -/
def create (shm : Segments) (name : ShmName) (capacity : UInt64) (io : CreateIo) :
    CreateResult × Segments :=
  createInner shm name capacity false io

/-- `create_force`: whatever had the name loses it. -/
def createForce (shm : Segments) (name : ShmName) (capacity : UInt64) (io : CreateIo) :
    CreateResult × Segments :=
  createInner shm name capacity true io

/-- The `Drop` of a writer. -/
def ShmRingWriter.drop (writer : ShmRingWriter) (shm : Segments) : Segments :=
  if nul ∈ writer.name then shm else Function.update shm writer.name none

variable {shm : Segments} {name : ShmName}

@[simp] theorem linked_modify (f : Segment → Segment) :
    (shm.modify name f).linked = shm.linked := by
  ext n
  by_cases hn : n = name
  · subst hn
    simp [Segments.linked, Segments.modify]
  · simp [Segments.linked, Segments.modify, Function.update_of_ne hn]

theorem linked_update_some (seg : Segment) :
    Segments.linked (Function.update shm name (some seg)) = insert name shm.linked := by
  ext n
  by_cases hn : n = name
  · subst hn
    simp [Segments.linked]
  · simp [Segments.linked, hn]

theorem linked_update_none :
    Segments.linked (Function.update shm name none) = shm.linked \ {name} := by
  ext n
  by_cases hn : n = name
  · subst hn
    simp [Segments.linked]
  · simp [Segments.linked, hn]

/-- A name that is linked is refused, and so is any name if the call fails. -/
theorem shmOpen_excl (shm : Segments) (name : ShmName) (answer : Option ShmError) :
    ((answer.isSome ∨ name ∈ shm.linked) ∧
      ∃ e, shmOpen shm name true answer = .error e) ∨
      (answer = none ∧ name ∉ shm.linked ∧
        ∃ shm₁, shmOpen shm name true answer = .ok shm₁ ∧
          shm₁.linked = insert name shm.linked) := by
  cases answer with
  | some e => exact .inl ⟨.inl rfl, e, rfl⟩
  | none =>
      cases hname : shm name with
      | some seg =>
          refine .inl ⟨.inr (Option.isSome_of_eq_some hname), .alreadyExists, ?_⟩
          simp only [shmOpen, hname, if_true]
      | none =>
          have hfree : name ∉ shm.linked := by simp [Segments.linked, hname]
          refine .inr ⟨rfl, hfree, Function.update shm name (some .empty), ?_,
            linked_update_some _⟩
          simp only [shmOpen, hname]

/-- What one exclusive creation can do: refuse before anything is linked, or link the
name and then fail or succeed. -/
theorem create_cases {capacity : UInt64} {io : CreateIo} {res : CreateResult}
    {shm' : Segments} (h : create shm name capacity io = (res, shm')) :
    (shm' = shm ∧ (res = .panic ∨
        (∃ e, res = .err e) ∧ (nul ∈ name ∨ io.shmOpen.isSome ∨ name ∈ shm.linked))) ∨
      (shm'.linked = insert name shm.linked ∧ nul ∉ name ∧ io.shmOpen = none ∧
        name ∉ shm.linked ∧
        ((∃ e, res = .err e) ∨ ∃ mapSize, res = .ok ⟨mapSize, name, capacity, 0⟩)) := by
  unfold create createInner at h
  split at h
  · cases h
    exact .inl ⟨rfl, .inl rfl⟩
  split at h
  · next hnul =>
    cases h
    exact .inl ⟨rfl, .inr ⟨⟨_, rfl⟩, .inl hnul⟩⟩
  next hnul =>
  simp only [Bool.false_and, Bool.false_eq_true, if_false, Bool.not_false] at h
  rcases shmOpen_excl shm name io.shmOpen with
    ⟨hrefused, e, hopen⟩ | ⟨hanswer, hfree, shm₁, hopen, hlinked⟩
  · rw [hopen] at h
    cases h
    exact .inl ⟨rfl, .inr ⟨⟨e, rfl⟩, .inr hrefused⟩⟩
  · rw [hopen] at h
    refine .inr ?_
    -- the name is linked now, and no later exit takes it back
    cases htruncate : io.ftruncate with
    | some e =>
        simp only [htruncate] at h
        cases h
        exact ⟨hlinked, hnul, hanswer, hfree, .inl ⟨e, rfl⟩⟩
    | none =>
        cases hmap : io.mmap with
        | some e =>
            simp only [htruncate, hmap] at h
            cases h
            exact ⟨by rw [linked_modify, hlinked], hnul, hanswer, hfree, .inl ⟨e, rfl⟩⟩
        | none =>
            simp only [htruncate, hmap] at h
            cases h
            exact ⟨by rw [linked_modify, linked_modify, hlinked], hnul, hanswer, hfree,
              .inr ⟨_, rfl⟩⟩

/-- A writer that was created and dropped leaves the names as they were. -/
theorem linked_drop_create {capacity : UInt64} {io : CreateIo} {writer : ShmRingWriter}
    {shm' : Segments} (h : create shm name capacity io = (.ok writer, shm')) :
    (writer.drop shm').linked = shm.linked := by
  rcases create_cases h with
    ⟨_, hpanic | ⟨⟨e, herr⟩, _⟩⟩ | ⟨hlinked, hnul, _, hfree, ⟨e, herr⟩ | ⟨_, hok⟩⟩
  · cases hpanic
  · cases herr
  · cases herr
  · cases hok
    rw [ShmRingWriter.drop, if_neg hnul, linked_update_none, hlinked,
      Set.insert_sdiff_self_of_notMem hfree]

/-- A failed `create` left nothing behind: the same names are linked, and no later
`create` of the name is refused as existing that would not have been refused before. -/
def LeavesNothing (shm shm' : Segments) (name : ShmName) : Prop :=
  shm'.linked = shm.linked ∧
    ∀ capacity io, (create shm' name capacity io).1 = .err .alreadyExists →
      (create shm name capacity io).1 = .err .alreadyExists

/-- A `create` that returns an error leaves nothing behind exactly if it did not get past
`shm_open`: the name has a nul, or is linked already, or the call fails. -/
theorem create_err_leavesNothing_iff (shm shm' : Segments) (name : ShmName)
    (capacity : UInt64) (io : CreateIo) (e : ShmError)
    (h : create shm name capacity io = (.err e, shm')) :
    LeavesNothing shm shm' name ↔ nul ∈ name ∨ io.shmOpen.isSome ∨
      name ∈ shm.linked := by
  rcases create_cases h with ⟨rfl, hpanic | ⟨_, hrefused⟩⟩ |
    ⟨hlinked, hnul, hanswer, hfree, _⟩
  · cases hpanic
  · exact iff_of_true ⟨rfl, fun _ _ hlater => hlater⟩ hrefused
  · refine iff_of_false ?_ (by simp [hnul, hanswer, hfree])
    rintro ⟨hsame, _⟩
    have hmem : name ∈ shm'.linked := by
      rw [hlinked]
      exact Set.mem_insert _ _
    exact hfree (hsame ▸ hmem)

/-- A second `create` of a live ring is refused and changes nothing. -/
theorem create_err_leavesNothing_iff_in_use :
    let shm : Segments := fun name =>
      if name = ['/', 'r'] then some ⟨mappingSize 4, ⟨readyMagic, 4, 2, 1⟩⟩ else none
    create shm ['/', 'r'] 4 ⟨true, none, none, none⟩ = (.err .alreadyExists, shm) ∧
      LeavesNothing shm shm ['/', 'r'] := by
  intro shm
  have hrun : create shm ['/', 'r'] 4 ⟨true, none, none, none⟩ =
    (.err .alreadyExists, shm) := rfl
  exact ⟨hrun, (create_err_leavesNothing_iff _ _ _ _ _ _ hrun).2 (.inr (.inr rfl))⟩

/-- With no space left `ftruncate` fails, the name stays, and the
next `create` finds it. -/
theorem create_leaves_name :
    let failed := create (fun _ => none) ['/', 'r'] 4 ⟨true, none, some (.os 28), none⟩
    failed.1 = .err (.os 28) ∧ (failed.2 ['/', 'r']).isSome ∧
      (create failed.2 ['/', 'r'] 4 ⟨true, none, none, none⟩).1 =
        .err .alreadyExists := by
  decide

end Candlestore.Shm
