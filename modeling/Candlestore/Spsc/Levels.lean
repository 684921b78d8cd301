import Candlestore.Spsc.Attach
import Candlestore.Spsc.Orderings

/-!
# One creation at three levels

`create_inner` appears three times: `Spsc.Segment` has it as one call that the system
answers, `Spsc.Processes` as a process that makes one system call or one access at a
time, and `Spsc.Orderings` as the accesses alone, over release/acquire memory.  This
file ties the three together.

A process that is left alone does what the call does (`createInner_alone`).  And what two
processes do on a segment, step by step from its mapping on, the two threads of the weak
memory can do as well: each of their loads reads the newest message and each of their
stores goes behind it (`accesses_mirrored`).
-/

namespace Candlestore.Shm

open Lib Spsc

variable {α τ : Type}

/-! ## The call and the process -/

/-- The segments that the names lead to. -/
def ShmMem.segments (m : ShmMem α) : Segments := fun name =>
  (m.names name).bind fun e => (m.objects[e]?).map Object.toSegment

/-- Every name leads to an object, and no two lead to the same. -/
structure Separate (m : ShmMem α) : Prop where
  bound : ∀ name e, m.names name = some e → e < m.objects.length
  distinct : ∀ name name' e, m.names name = some e → m.names name' = some e →
    name = name'

/-- The result of `create_inner` at the program points at which it has one. -/
def ShmPc.result (name : ShmName) (capacity : UInt64) : ShmPc α → Option CreateResult
  | .panicked => some .panic
  | .failed e => some (.err e)
  | .writer _ => some (.ok ⟨mappingSize capacity, name, capacity, 0⟩)
  | _ => none

/-- A step that is not interrupted, with the answer to its system call if it makes one.
-/
def answering (answer : Option ShmError) : ShmChoice α := ⟨false, answer, false, none⟩

/-- The answers of `io` in the order in which `create_inner` asks for them. -/
def CreateIo.answers (io : CreateIo) (force : Bool) : List (ShmChoice α) :=
  answering none ::
    ((if force then [answering (if io.unlinks then none else some (.os 2))] else []) ++
      [answering io.shmOpen, answering io.ftruncate, answering io.mmap, answering none,
        answering none, answering none, answering none])

theorem segments_modify {m : ShmMem α} (hm : Separate m) {name : ShmName} {e : Nat}
    (hname : m.names name = some e) {f : Object α → Object α} {g : Segment → Segment}
    (hf : ∀ o, (f o).toSegment = g o.toSegment) :
    (m.modify e f).segments = m.segments.modify name g := by
  funext n
  show (m.names n).bind (fun i => ((m.modify e f).objects[i]?).map Object.toSegment) = _
  by_cases hn : n = name
  · subst hn
    rw [Segments.modify, Function.update_self, ShmMem.segments, hname, Option.bind_some,
      Option.bind_some, objects_modify, if_pos rfl]
    cases m.objects[e]? with
    | none => rfl
    | some o => exact congrArg some (hf o)
  · rw [Segments.modify, Function.update_of_ne hn, ShmMem.segments]
    cases hother : m.names n with
    | none => rfl
    | some i =>
        have hne : e ≠ i := by
          rintro rfl
          exact hn (hm.distinct n name e hother hname)
        rw [Option.bind_some, Option.bind_some, objects_modify, if_neg hne]

theorem segments_unlink (m : ShmMem α) (name : ShmName) :
    ShmMem.segments { m with names := Function.update m.names name none } =
      Function.update m.segments name none := by
  funext n
  by_cases hn : n = name
  · subst hn
    simp [ShmMem.segments]
  · simp [ShmMem.segments, hn]

theorem Separate.unlink {m : ShmMem α} (hm : Separate m) (name : ShmName) :
    Separate { m with names := Function.update m.names name none } := by
  have hold : ∀ n e, Function.update m.names name none n = some e →
      m.names n = some e := by
    intro n e h
    by_cases hn : n = name
    · subst hn
      rw [Function.update_self] at h
      cases h
    · rwa [Function.update_of_ne hn] at h
  exact ⟨fun n e h => hm.bound n e (hold n e h),
    fun n n' e h h' => hm.distinct n n' e (hold n e h) (hold n' e h')⟩

theorem modify_modify (m : ShmMem α) (e : Nat) (f g : Object α → Object α) :
    (m.modify e f).modify e g = m.modify e (g ∘ f) := by
  simp only [ShmMem.modify, List.modify_modify_eq]

theorem Separate.modify {m : ShmMem α} (hm : Separate m) (e : Nat)
    (f : Object α → Object α) : Separate (m.modify e f) := by
  refine ⟨fun n i h => ?_, hm.distinct⟩
  rw [ShmMem.modify, List.length_modify]
  exact hm.bound n i h

theorem Separate.access {m : ShmMem α} (hm : Separate m) {e : Nat} {capacity : UInt64}
    {a : Access} {f : Object α → ShmMem α × ShmPc α} (hf : ∀ o, Separate (f o).1) :
    Separate (m.access e capacity a f).1 := by
  unfold ShmMem.access
  split
  · split
    · exact hf _
    · exact hm
  · exact hm

theorem Separate.reader {m : ShmMem α} (hm : Separate m) {name : ShmName}
    {capacity : UInt64} {ch : ShmChoice α} {p : ShmPc α} {s : ShmMem α × ShmPc α}
    (h : readerStep name capacity ch m p = some s) : Separate s.1 := by
  cases p with
  | start =>
      simp only [readerStep] at h
      split at h
      · cases h
        exact hm
      · split at h <;> (cases h; exact hm)
  | lookup =>
      simp only [readerStep] at h
      split at h <;> (cases h; exact hm)
  | mapSegment e =>
      simp only [readerStep] at h
      split at h <;> (cases h; exact hm)
  | loadReady e | loadCapacity e =>
      cases h
      exact hm.access fun _ => hm
  | checkDeadline e =>
      cases h
      exact hm
  | reader e =>
      simp only [readerStep] at h
      split at h <;> (cases h; exact hm)
  | popping e pc =>
      cases h
      cases pc with
      | loadTail | loadHead tail | read tail => exact hm.access fun _ => hm
      | storeTail tail item => exact hm.access fun _ => hm.modify e _
  | _ => cases h

section Create

variable [Inhabited α] {m : ShmMem α} {name : ShmName}

/-- The memory after `shm_open` has made a new object. -/
def ShmMem.link (m : ShmMem α) (name : ShmName) : ShmMem α where
  objects := m.objects ++ [.empty]
  names := Function.update m.names name (some m.objects.length)

theorem segments_link (hm : Separate m) :
    (m.link name).segments = Function.update m.segments name (some .empty) := by
  funext n
  by_cases hn : n = name
  · subst hn
    simp [ShmMem.segments, ShmMem.link, Object.empty]
  · simp only [ShmMem.segments, ShmMem.link, Function.update_of_ne hn]
    cases hother : m.names n with
    | none => rfl
    | some e =>
        rw [Option.bind_some, Option.bind_some,
          List.getElem?_append_left (hm.bound n e hother)]

theorem Separate.link (hm : Separate m) (name : ShmName) : Separate (m.link name) := by
  have hold : ∀ n e, (m.link name).names n = some e →
      n = name ∧ e = m.objects.length ∨ m.names n = some e := by
    intro n e h
    by_cases hn : n = name
    · subst hn
      simp only [ShmMem.link, Function.update_self, Option.some.injEq] at h
      exact .inl ⟨rfl, h.symm⟩
    · simp only [ShmMem.link, Function.update_of_ne hn] at h
      exact .inr h
  refine ⟨?_, ?_⟩
  · intro n e h
    rw [ShmMem.link, List.length_append, List.length_singleton]
    rcases hold n e h with ⟨-, rfl⟩ | hn
    · exact Nat.lt_succ_self _
    · exact Nat.lt_succ_of_lt (hm.bound n e hn)
  · intro n n' e h h'
    rcases hold n e h with ⟨rfl, rfl⟩ | hn
    · rcases hold n' _ h' with ⟨rfl, -⟩ | hn'
      · rfl
      · exact absurd (hm.bound n' _ hn') (Nat.lt_irrefl _)
    · rcases hold n' _ h' with ⟨-, rfl⟩ | hn'
      · exact absurd (hm.bound n _ hn) (Nat.lt_irrefl _)
      · exact hm.distinct n n' e hn hn'

theorem Separate.writer (hm : Separate m) {capacity : UInt64} {force : Bool}
    {ch : ShmChoice α} {p : ShmPc α} {s : ShmMem α × ShmPc α}
    (h : writerStep name capacity force ch m p = some s) : Separate s.1 := by
  cases p with
  | start =>
      simp only [writerStep] at h
      split at h
      · cases h
        exact hm
      · split at h <;> (cases h; exact hm)
  | unlink =>
      cases h
      show Separate (if ch.answer.isNone = true then _ else m)
      split
      · exact hm.unlink name
      · exact hm
  | shmOpen =>
      simp only [writerStep] at h
      split at h
      · cases h
        exact hm
      · cases h
        exact hm
      · cases h
        exact hm.link name
  | ftruncate e =>
      simp only [writerStep] at h
      split at h
      · cases h
        exact hm
      · cases h
        exact hm.modify e _
  | mmap e =>
      simp only [writerStep] at h
      split at h <;> (cases h; exact hm)
  | setCapacity e | setHead e | setTail e | setReady e =>
      cases h
      exact hm.access fun _ => hm.modify e _
  | writer e =>
      simp only [writerStep] at h
      split at h <;> (cases h; exact hm)
  | pushing e item pc =>
      cases pc with
      | loadHead | loadTail head =>
          cases h
          exact hm.access fun _ => hm
      | write head | storeHead head =>
          cases h
          exact hm.access fun _ => hm.modify e _
      | countFull | checkCancel => cases h
  | unlinkName =>
      cases h
      exact hm.unlink name
  | _ => cases h

/-- However many processes share the segments, no two names lead to the same one. -/
theorem separate_of_exec {call : τ → ShmCall} [DecidableEq τ]
    {as : List (Turn τ (ShmChoice α))} {w : World (ShmMem α) (ShmPc α) τ}
    (hrun : exec (turn (shmNext call)) shmStart as = some w) : Separate w.mem := by
  refine exec_invariant (P := fun w : World (ShmMem α) (ShmPc α) τ => Separate w.mem) ?_
    hrun ?_
  · intro w a w' hm hstep
    obtain ⟨m, p, hnext, rfl⟩ := turn_eq_some.1 hstep
    unfold shmNext at hnext
    split at hnext
    · cases hnext
      exact hm
    · split at hnext
      · exact hm.writer hnext
      · exact hm.reader hnext
  · exact ⟨(fun _ _ h => by cases h), fun _ _ _ h => by cases h⟩

/-! ### A process that is left alone -/

variable {call : τ → ShmCall} {t : τ} {capacity : UInt64} {force : Bool} {e : Nat}
  {o : Object α}

theorem solo_create (hcall : call t = .create name capacity force)
    (answer : Option ShmError) (p : ShmPc α) :
    solo (shmNext call) t (m, p) (answering answer) =
      writerStep name capacity force (answering answer) m p := by
  rw [solo, shmNext, hcall]
  rfl

/-- The four stores of `create_inner` initialise the header. -/
theorem exec_header (hcall : call t = .create name capacity force)
    (hfits : Fits capacity) (ho : m.objects[e]? = some o)
    (hsize : o.size = mappingSize capacity) :
    exec (solo (shmNext call) t) (m, .setCapacity e)
        [answering none, answering none, answering none, answering none] =
      some (m.modify e fun o => o.setHeader fun _ => ⟨readyMagic, capacity, 0, 0⟩,
        .writer e) := by
  -- each of them is inside the object, whose size none of them changes
  have hinside : ∀ {f : Object α → Object α} {a : Access}
      {k : Object α → ShmMem α × ShmPc α},
      (f o).size = o.size → a.length = 8 →
      (m.modify e f).access e capacity a k = k (f o) := by
    intro f a k hf ha
    have hf' : (m.modify e f).objects[e]? = some (f o) := by
      rw [objects_modify, if_pos rfl, ho, Option.map_some]
    exact access_eq hf' hfits (hf.trans hsize) (header_inside a capacity ha)
  refine exec_cons_eq_some.2 ⟨(m.modify e fun o => o.setHeader fun h =>
    { h with capacity := capacity }, .setHead e), ?_, ?_⟩
  · rw [solo_create hcall, writerStep,
      access_eq ho hfits hsize (header_inside .capacity capacity rfl)]
  refine exec_cons_eq_some.2 ⟨(m.modify e fun o => o.setHeader fun h =>
    { h with capacity := capacity, head := 0 }, .setTail e), ?_, ?_⟩
  · rw [solo_create hcall, writerStep, hinside rfl rfl, modify_modify]
    rfl
  refine exec_cons_eq_some.2 ⟨(m.modify e fun o => o.setHeader fun h =>
    { h with capacity := capacity, head := 0, tail := 0 }, .setReady e), ?_, ?_⟩
  · rw [solo_create hcall, writerStep, hinside rfl rfl, modify_modify]
    rfl
  refine exec_cons_eq_some.2 ⟨_, ?_, rfl⟩
  rw [solo_create hcall, writerStep, hinside rfl rfl, modify_modify]
  rfl

/-- What is left of `create_inner` once the segment is open. -/
def createTail (shm : Segments) (name : ShmName) (capacity : UInt64) (io : CreateIo) :
    CreateResult × Segments :=
  match io.ftruncate with
  | some e => (.err e, shm)
  | none =>
      let shm := shm.modify name fun seg => { seg with size := mappingSize capacity }
      match io.mmap with
      | some e => (.err e, shm)
      | none =>
          (.ok ⟨mappingSize capacity, name, capacity, 0⟩,
            shm.modify name fun seg =>
              { seg with header := ⟨readyMagic, capacity, 0, 0⟩ })

/-- The process has come to the end of `create_inner` with this outcome. -/
def Returned (name : ShmName) (capacity : UInt64) (outcome : CreateResult × Segments)
    (s : ShmMem α × ShmPc α) : Prop :=
  s.2.result name capacity = some outcome.1 ∧ s.1.segments = outcome.2

/-- The process from `ftruncate` on. -/
theorem exec_tail (hcall : call t = .create name capacity force) (hfits : Fits capacity)
    (hm : Separate m) (hname : m.names name = some e) (io : CreateIo) :
    ∃ cs s, cs <+: [answering io.ftruncate, answering io.mmap, answering none,
        answering none, answering none, answering none] ∧
      exec (solo (shmNext call) t) (m, .ftruncate e) cs = some s ∧
      Returned name capacity (createTail m.segments name capacity io) s := by
  obtain ⟨o, ho⟩ : ∃ o, m.objects[e]? = some o :=
    ⟨_, List.getElem?_eq_getElem (hm.bound name e hname)⟩
  cases htruncate : io.ftruncate with
  | some err =>
      refine ⟨[answering (some err)], (m, .failed err), ⟨_, rfl⟩, ?_, ?_⟩
      · exact exec_cons_eq_some.2 ⟨_, solo_create hcall _ _, rfl⟩
      · simp only [Returned, createTail, htruncate, and_true]
        rfl
  | none =>
      have hsized := segments_modify hm hname
        (f := fun o => o.resize (mappingSize capacity))
        (g := fun seg => { seg with size := mappingSize capacity }) fun _ => rfl
      have hresize : solo (shmNext call) t (m, .ftruncate e) (answering none) =
          some (m.modify e fun o => o.resize (mappingSize capacity), .mmap e) :=
        solo_create hcall _ _
      cases hmap : io.mmap with
      | some err =>
          refine ⟨[answering none, answering (some err)], _, ⟨_, rfl⟩,
            exec_cons_eq_some.2
            ⟨_, hresize, exec_cons_eq_some.2 ⟨_, solo_create hcall _ _, rfl⟩⟩, ?_⟩
          simp only [Returned, createTail, htruncate, hmap]
          exact ⟨rfl, hsized⟩
      | none =>
          have ho' : (m.modify e fun o => o.resize (mappingSize capacity)).objects[e]? =
              some (o.resize (mappingSize capacity)) := by
            rw [objects_modify, if_pos rfl, ho, Option.map_some]
          refine ⟨_, _, List.prefix_refl _, exec_cons_eq_some.2 ⟨_, hresize,
            exec_cons_eq_some.2 ⟨_, solo_create hcall _ _,
              exec_header hcall hfits ho' rfl⟩⟩, ?_⟩
          simp only [Returned, createTail, htruncate, hmap, ← hsized]
          refine ⟨rfl, ?_⟩
          exact segments_modify (hm.modify e _) hname fun _ => rfl

theorem createInner_of_error {shm : Segments} {io : CreateIo} {err : ShmError}
    (hpow : capacity.toNat = 2 ^ capacity.toNat.log2) (hnul : nul ∉ name)
    (h : shmOpen (if force && io.unlinks then Function.update shm name none else shm)
      name (!force) io.shmOpen = .error err) :
    createInner shm name capacity force io =
      (.err err,
        if force && io.unlinks then Function.update shm name none else shm) := by
  rw [createInner, if_neg (not_not.2 hpow), if_neg hnul]
  simp only [h]

theorem createInner_of_ok {shm shm' : Segments} {io : CreateIo}
    (hpow : capacity.toNat = 2 ^ capacity.toNat.log2) (hnul : nul ∉ name)
    (h : shmOpen (if force && io.unlinks then Function.update shm name none else shm)
      name (!force) io.shmOpen = .ok shm') :
    createInner shm name capacity force io = createTail shm' name capacity io := by
  rw [createInner, if_neg (not_not.2 hpow), if_neg hnul]
  simp only [h]
  rfl

/-- The process from `shm_open` on. -/
theorem exec_open (hcall : call t = .create name capacity force) (hfits : Fits capacity)
    (hm : Separate m) (io : CreateIo) :
    ∃ cs s, cs <+: [answering io.shmOpen, answering io.ftruncate, answering io.mmap,
        answering none, answering none, answering none, answering none] ∧
      exec (solo (shmNext call) t) (m, .shmOpen) cs = some s ∧
      ((∃ err, shmOpen m.segments name (!force) io.shmOpen = .error err ∧
          Returned name capacity (.err err, m.segments) s) ∨
        ∃ shm, shmOpen m.segments name (!force) io.shmOpen = .ok shm ∧
          Returned name capacity (createTail shm name capacity io) s) := by
  cases hanswer : io.shmOpen with
  | some err =>
      refine ⟨[answering (some err)], (m, .failed err), ⟨_, rfl⟩, ?_,
        .inl ⟨err, rfl, rfl, rfl⟩⟩
      exact exec_cons_eq_some.2 ⟨_, solo_create hcall _ _, rfl⟩
  | none =>
      have hopen := solo_create (m := m) hcall none .shmOpen
      cases hname : m.names name with
      | none =>
          have hfree : m.segments name = none := by
            rw [ShmMem.segments, hname, Option.bind_none]
          simp only [writerStep, answering, hname] at hopen
          obtain ⟨cs, s, hcs, hrun, hend⟩ := exec_tail hcall hfits (hm.link name)
            (Function.update_self ..) io
          rw [segments_link hm] at hend
          refine ⟨answering none :: cs, s, List.cons_prefix_cons.2 ⟨rfl, hcs⟩,
            exec_cons_eq_some.2 ⟨_, hopen, hrun⟩, .inr ⟨_, ?_, hend⟩⟩
          simp only [shmOpen, hfree]
      | some e =>
          obtain ⟨seg, hseg⟩ : ∃ seg, m.segments name = some seg := by
            rw [ShmMem.segments, hname, Option.bind_some,
              List.getElem?_eq_getElem (hm.bound name e hname)]
            exact ⟨_, rfl⟩
          simp only [writerStep, answering, hname] at hopen
          cases force with
          | false =>
              refine ⟨[answering none], _, ⟨_, rfl⟩, exec_cons_eq_some.2 ⟨_, hopen, rfl⟩,
                .inl ⟨.alreadyExists, ?_, rfl, rfl⟩⟩
              simp only [shmOpen, hseg, Bool.not_false, if_true]
          | true =>
              obtain ⟨cs, s, hcs, hrun, hend⟩ := exec_tail hcall hfits hm hname io
              refine ⟨answering none :: cs, s, List.cons_prefix_cons.2 ⟨rfl, hcs⟩,
                exec_cons_eq_some.2 ⟨_, hopen, hrun⟩, .inr ⟨_, ?_, hend⟩⟩
              simp only [shmOpen, hseg, Bool.not_true, Bool.false_eq_true, if_false]

/-- The process up to `shm_open`.  With `force` it unlinks the name first. -/
theorem exec_unlink (hcall : call t = .create name capacity force) (hm : Separate m)
    (hpow : capacity.toNat = 2 ^ capacity.toNat.log2) (hnul : nul ∉ name)
    (io : CreateIo) :
    ∃ pre m₀, Separate m₀ ∧
      m₀.segments = (if force && io.unlinks then Function.update m.segments name none
        else m.segments) ∧
      exec (solo (shmNext call) t) (m, .start) pre = some (m₀, .shmOpen) ∧
      (pre ++ [answering io.shmOpen, answering io.ftruncate, answering io.mmap,
        answering none, answering none, answering none, answering none] :
        List (ShmChoice α)) = io.answers force := by
  have hstart := solo_create (m := m) hcall none .start
  rw [writerStep, if_neg (not_not.2 hpow), if_neg hnul] at hstart
  cases force with
  | false =>
      exact ⟨[answering none], m, hm, rfl, exec_cons_eq_some.2 ⟨_, hstart, rfl⟩, rfl⟩
  | true =>
      have hunlink := solo_create (m := m) hcall
        (if io.unlinks then none else some (.os 2)) .unlink
      cases hio : io.unlinks with
      | true =>
          rw [hio] at hunlink
          refine ⟨[answering none, answering none], _, hm.unlink name,
            segments_unlink m name,
            exec_cons_eq_some.2 ⟨_, hstart, exec_cons_eq_some.2 ⟨_, hunlink, rfl⟩⟩, ?_⟩
          simp only [CreateIo.answers, hio, if_true]
          rfl
      | false =>
          rw [hio] at hunlink
          refine ⟨[answering none, answering (some (.os 2))], m, hm, rfl,
            exec_cons_eq_some.2 ⟨_, hstart, exec_cons_eq_some.2 ⟨_, hunlink, rfl⟩⟩, ?_⟩
          simp only [CreateIo.answers, hio, if_true]
          rfl

/-- The process from its start, for as long as `create_inner` takes. -/
theorem exec_createInner (hcall : call t = .create name capacity force)
    (hfits : Fits capacity) (hm : Separate m) (io : CreateIo) :
    ∃ cs s, cs <+: io.answers force ∧
      exec (solo (shmNext call) t) (m, .start) cs = some s ∧
      Returned name capacity (createInner m.segments name capacity force io) s := by
  have hstart := solo_create (m := m) hcall none .start
  unfold writerStep at hstart
  by_cases hpow : capacity.toNat = 2 ^ capacity.toNat.log2
  swap
  · rw [if_pos hpow] at hstart
    refine ⟨[answering none], _, ⟨_, rfl⟩, exec_cons_eq_some.2 ⟨_, hstart, rfl⟩, ?_⟩
    rw [createInner, if_pos hpow]
    exact ⟨rfl, rfl⟩
  rw [if_neg (not_not.2 hpow)] at hstart
  by_cases hnul : nul ∈ name
  · rw [if_pos hnul] at hstart
    refine ⟨[answering none], _, ⟨_, rfl⟩, exec_cons_eq_some.2 ⟨_, hstart, rfl⟩, ?_⟩
    rw [createInner, if_neg (not_not.2 hpow), if_pos hnul]
    exact ⟨rfl, rfl⟩
  obtain ⟨pre, m₀, hm₀, hsegs, hreach, hpre⟩ := exec_unlink hcall hm hpow hnul io
  obtain ⟨cs, s, hcs, hrun, hend⟩ := exec_open hcall hfits hm₀ io
  refine ⟨pre ++ cs, s, hpre ▸ (List.prefix_append_right_inj pre).2 hcs,
    exec_append_eq_some.2 ⟨_, hreach, hrun⟩, ?_⟩
  rw [hsegs] at hend
  rcases hend with ⟨err, hopen, hend⟩ | ⟨shm, hopen, hend⟩
  · rwa [createInner_of_error hpow hnul hopen]
  · rwa [createInner_of_ok hpow hnul hopen]

/-- At any point of any run, a process that starts to create a segment and is left alone,
with the answers of `io` for as long as it asks, does what `create_inner` does. -/
theorem createInner_alone [DecidableEq τ] (hcall : call t = .create name capacity force)
    (hfits : Fits capacity) {as : List (Turn τ (ShmChoice α))}
    {w : World (ShmMem α) (ShmPc α) τ}
    (hrun : exec (turn (shmNext call)) shmStart as = some w) (hpc : w.pc t = .start)
    (io : CreateIo) :
    ∃ cs w', cs <+: io.answers force ∧
      exec (turn (shmNext call)) w (cs.map (Turn.mk t)) = some w' ∧
      Returned name capacity (createInner w.mem.segments name capacity force io)
        (w'.mem, w'.pc t) := by
  obtain ⟨cs, s, hcs, hsolo, hend⟩ :=
    exec_createInner hcall hfits (separate_of_exec hrun) io
  refine ⟨cs, _, hcs, exec_solo hsolo w rfl hpc, ?_⟩
  simpa only [Function.update_self] using hend

end Create

end Candlestore.Shm

namespace Candlestore.Weak

open Lib Spsc Shm

variable {α : Type} {c : Capacity}

/-! ## The processes and the weak memory -/

/-- The cursors of a header. -/
def cursors (h : ShmHeader) : Cursor → UInt64
  | .ready => h.ready
  | .head => h.head
  | .tail => h.tail

/-- The header after a store to one of its cursors. -/
def setCursor (l : Cursor) (v : UInt64) (h : ShmHeader) : ShmHeader :=
  match l with
  | .ready => { h with ready := v }
  | .head => { h with head := v }
  | .tail => { h with tail := v }

theorem cursors_setCursor (l : Cursor) (v : UInt64) (h : ShmHeader) :
    cursors (setCursor l v h) = Function.update (cursors h) l v := by
  funext l'
  cases l <;> cases l' <;> rfl

/-- The newest messages and the plain values of a weak memory are the contents of an
object. -/
structure Mirrors (c : Capacity) (o : Object α) (m : Segment α)
    (pushed popped : List α) : Prop where
  size : o.size = mappingSize c.word
  latest : ∃ stamp, m.Latest stamp (cursors o.header)
  capacity : (m.plain .capacity).value = o.header.capacity
  slots : ∀ i, (m.plain (.slot i)).value = o.slots i
  pushed : pushed = o.pushed
  popped : popped = o.popped

namespace Mirrors

variable {o : Object α} {m : Segment α} {pushed popped : List α}

/-- A load can read what the object holds. -/
theorem load (h : Mirrors c o m pushed popped) (order : LoadOrder) (t : Role)
    (l : Cursor) :
    ∃ stamp m', m.load order t l stamp = some (cursors o.header l, m') ∧
      Mirrors c o m' pushed popped := by
  obtain ⟨stamp, hlatest⟩ := h.latest
  obtain ⟨m', hload, hlatest', hplain⟩ := hlatest.load order t l
  exact ⟨stamp l, m', hload, h.size, ⟨stamp, hlatest'⟩, hplain ▸ h.capacity,
    hplain ▸ h.slots, h.pushed, h.popped⟩

/-- A store can go where the object has it. -/
theorem store (h : Mirrors c o m pushed popped) (order : StoreOrder) (t : Role)
    (l : Cursor) (v : UInt64) :
    ∃ stamp m', m.store order t l stamp v = some m' ∧
      Mirrors c (o.setHeader (setCursor l v)) m' pushed popped := by
  obtain ⟨stamp, hlatest⟩ := h.latest
  obtain ⟨m', hstore, hplain, hlatest'⟩ := hlatest.store order t l v
  refine ⟨stamp l + 1, m', hstore, h.size, ⟨Function.update stamp l (stamp l + 1), ?_⟩,
    ?_, hplain ▸ h.slots, h.pushed, h.popped⟩
  · show m'.Latest _ (cursors (setCursor l v o.header))
    rw [cursors_setCursor]
    exact hlatest'
  · rw [hplain, h.capacity]
    cases l <;> rfl

theorem writeCapacity (h : Mirrors c o m pushed popped) (t : Role) (v : UInt64) :
    Mirrors c (o.setHeader fun hd => { hd with capacity := v })
      (m.write t .capacity v) pushed popped := by
  obtain ⟨stamp, hlatest⟩ := h.latest
  refine ⟨h.size, ⟨stamp, ?_⟩, ?_, fun i => ?_, h.pushed, h.popped⟩
  · have hsame : cursors { o.header with capacity := v } = cursors o.header := by
      funext l
      cases l <;> rfl
    show (m.write t .capacity v).Latest stamp (cursors { o.header with capacity := v })
    rw [hsame]
    exact hlatest.write t .capacity v
  · rw [Memory.write_plain_self]
    rfl
  · rw [Memory.write_plain_of_ne (slot_ne_capacity i)]
    exact h.slots i

theorem writeSlot (h : Mirrors c o m pushed popped) (t : Role) (i : Nat) (item : α) :
    Mirrors c { o with slots := Function.update o.slots i item }
      (m.write t (.slot i) item) pushed popped := by
  obtain ⟨stamp, hlatest⟩ := h.latest
  refine ⟨h.size, ⟨stamp, hlatest.write t (.slot i) item⟩, ?_,
    fun j => ?_, h.pushed, h.popped⟩
  · rw [Memory.write_plain_of_ne (slot_ne_capacity i).symm]
    exact h.capacity
  · by_cases hj : j = i
    · subst hj
      simp only [Memory.write_plain_self, Function.update_self]
    · simp only [Function.update_of_ne hj]
      rw [Memory.write_plain_of_ne fun hne => hj (Field.slot.inj hne)]
      exact h.slots j

theorem read (h : Mirrors c o m pushed popped) (t : Role) (n : Field) :
    Mirrors c o (m.read t n).2 pushed popped := by
  obtain ⟨stamp, hlatest⟩ := h.latest
  refine ⟨h.size, ⟨stamp, hlatest.read t n⟩, ?_, fun i => ?_, h.pushed, h.popped⟩
  · rw [(Memory.read_plain _).1]
    exact h.capacity
  · rw [(Memory.read_plain _).1]
    exact h.slots i

end Mirrors

/-- The program points of a writer that has mapped the object `e`. -/
inductive WriterAt (e : Nat) : ShmPc α → WriterPc α → Prop where
  | setCapacity : WriterAt e (.setCapacity e) .setCapacity
  | setHead : WriterAt e (.setHead e) .setHead
  | setTail : WriterAt e (.setTail e) .setTail
  | setReady : WriterAt e (.setReady e) .setReady
  | idle : WriterAt e (.writer e) .idle
  | loadHead (item : α) : WriterAt e (.pushing e item .loadHead) (.loadHead item)
  | loadTail (item : α) (head : UInt64) :
      WriterAt e (.pushing e item (.loadTail head)) (.loadTail item head)
  | write (item : α) (head : UInt64) :
      WriterAt e (.pushing e item (.write head)) (.write item head)
  | storeHead (item : α) (head : UInt64) :
      WriterAt e (.pushing e item (.storeHead head)) (.storeHead item head)

/-- The program points of a reader whose name leads to the object `e`.  Over weak memory
there is no mapping, and one way to fail. -/
inductive ReaderAt (e : Nat) : ShmPc α → ReaderPc α → Prop where
  | start : ReaderAt e .start .awaitReady
  | lookup : ReaderAt e .lookup .awaitReady
  | mapSegment : ReaderAt e (.mapSegment e) .awaitReady
  | loadReady : ReaderAt e (.loadReady e) .awaitReady
  | checkDeadline : ReaderAt e (.checkDeadline e) .awaitReady
  | loadCapacity : ReaderAt e (.loadCapacity e) .readCapacity
  | panicked : ReaderAt e .panicked .failed
  | failed (err : ShmError) : ReaderAt e (.failed err) .failed
  | timedOut : ReaderAt e .timedOut .failed
  | mismatch (requested writer : UInt64) :
      ReaderAt e (.mismatch requested writer) .failed
  | idle : ReaderAt e (.reader e) .idle
  | loadTail : ReaderAt e (.popping e .loadTail) .loadTail
  | loadHead (tail : UInt64) : ReaderAt e (.popping e (.loadHead tail)) (.loadHead tail)
  | read (tail : UInt64) : ReaderAt e (.popping e (.read tail)) (.read tail)
  | storeTail (tail : UInt64) (item : α) :
      ReaderAt e (.popping e (.storeTail tail item)) (.storeTail tail item)

/-- What the header says once the writer is past its first store. -/
structure HeaderOk (c : Capacity) (h : ShmHeader) (writer : WriterPc α) : Prop where
  ready : h.ready = readyMagic → writer.blank = false
  capacity : writer.blank = false → h.capacity = c.word

theorem HeaderOk.setCursor {h : ShmHeader} {writer writer' : WriterPc α}
    (hok : HeaderOk c h writer) (l : Cursor) (v : UInt64)
    (hwriter : writer.blank = false) (hwriter' : writer'.blank = false) :
    HeaderOk c (setCursor l v h) writer' := by
  refine ⟨fun _ => hwriter', fun _ => ?_⟩
  rw [← hok.capacity hwriter]
  cases l <;> rfl

/-- The object `e` of the processes and the ring over weak memory. -/
def Backs (c : Capacity) (m : ShmMem α) (e : Nat) (s : SharedRing α) : Prop :=
  ∃ o, m.objects[e]? = some o ∧ Mirrors c o s.memory s.pushed s.popped ∧
    HeaderOk c o.header s.writer

/-- Two processes on the object `e`, and two threads over weak memory. -/
structure Mapped (name : ShmName) (c : Capacity) (requested : UInt64) (e : Nat)
    (w : World (ShmMem α) (ShmPc α) Role) (s : SharedRing α) : Prop where
  object : Backs c w.mem e s
  named : w.mem.names name = some e
  writer : WriterAt e (w.pc .writer) s.writer
  reader : ReaderAt e (w.pc .reader) s.reader
  opened : s.reader.opened = true → s.writer.blank = false
  attached : s.reader.attached = true → requested = c.word

section Steps

variable {requested : UInt64} {e : Nat} {m m' : ShmMem α} {p p' : ShmPc α}
  {s : SharedRing α}

/-- What a step of the reading process is over weak memory. -/
def ReaderMoved (c : Capacity) (requested : UInt64) (e : Nat) (s : SharedRing α)
    (m' : ShmMem α) (p' : ShmPc α) : Prop :=
  ∃ acts s', exec (ringStep orderings c requested) s acts = some s' ∧ Backs c m' e s' ∧
    ReaderAt e p' s'.reader ∧ s'.writer = s.writer ∧
    (s'.reader.opened = true → s.writer.blank = false) ∧
    (s'.reader.attached = true → requested = c.word)

/-- Before it has seen `ready`, the process may do what the thread does not. -/
theorem ReaderMoved.waits (hback : Backs c m e s) (hq : s.reader = .awaitReady)
    (hat : ReaderAt e p' .awaitReady) : ReaderMoved c requested e s m p' := by
  refine ⟨[], s, rfl, hback, hq ▸ hat, rfl, ?_, ?_⟩ <;>
  · intro h
    rw [hq] at h
    cases h

theorem ReaderMoved.gives_up (hback : Backs c m e s) (hq : s.reader = .awaitReady)
    (hat : ReaderAt e p' .failed) : ReaderMoved c requested e s m p' := by
  refine ⟨[.timeout], { s with reader := .failed }, ?_, hback, hat, rfl, ?_, ?_⟩
  · exact exec_cons_eq_some.2 ⟨_, by simp only [ringStep, hq], rfl⟩
  all_goals
    intro h
    cases h

/-- One access of the thread. -/
theorem ReaderMoved.access {s' : SharedRing α} {act : Act α}
    (hact : ringStep orderings c requested s act = some s') (hback : Backs c m' e s')
    (hat : ReaderAt e p' s'.reader) (hwriter : s'.writer = s.writer)
    (hblank : s'.reader.opened = true → s.writer.blank = false)
    (hagree : s'.reader.attached = true → requested = c.word) :
    ReaderMoved c requested e s m' p' :=
  ⟨[act], s', exec_cons_eq_some.2 ⟨s', hact, rfl⟩, hback, hat, hwriter, hblank, hagree⟩

/-- What a step of the writing process is over weak memory. -/
def WriterMoved (c : Capacity) (requested : UInt64) (e : Nat) (s : SharedRing α)
    (m' : ShmMem α) (p' : ShmPc α) : Prop :=
  ∃ act s', ringStep orderings c requested s act = some s' ∧ Backs c m' e s' ∧
    WriterAt e p' s'.writer ∧ s'.reader = s.reader ∧ s'.writer.blank = false

variable {ch : ShmChoice α} {name : ShmName} {force : Bool}

/-- An access of an attempt to push is one of the writing thread, which loads the newest
message or stores behind it. -/
theorem push_mirrored (hfits : Fits c.word) (hback : Backs c m e s) {item : α}
    {pc : PushPc} (hat : WriterAt e (.pushing e item pc) s.writer)
    (hstep : attemptPush c.word m e item pc = some (m', p')) :
    WriterMoved c requested e s m' p' ∧ m'.names = m.names := by
  obtain ⟨o, ho, hmirrors, hok⟩ := hback
  have haccess : ∀ a {f}, a.length = 8 → m.access e c.word a f = f o := fun a _ ha =>
    access_header a ho hfits hfits hmirrors.size ha
  generalize hq : s.writer = q at hat
  rw [hq] at hok
  cases hat with
  | loadHead item =>
      obtain ⟨stamp, mem, hload, hmirrors'⟩ := hmirrors.load .relaxed .writer .head
      simp only [attemptPush, haccess .head rfl] at hstep
      cases hstep
      have hact : ringStep orderings c requested s (.writer stamp) =
          some { s with
            memory := mem
            writer := .loadTail item (cursors o.header .head) } := by
        simp only [ringStep, writerStep, hq, hload, Option.map_some]
      exact ⟨⟨_, _, hact, ⟨o, ho, hmirrors', fun _ => rfl, fun _ => hok.capacity rfl⟩,
        .loadTail item _, rfl, rfl⟩, rfl⟩
  | loadTail item head =>
      obtain ⟨stamp, mem, hload, hmirrors'⟩ :=
        hmirrors.load orderings.pushTail .writer .tail
      simp only [attemptPush, haccess .tail rfl] at hstep
      cases hstep
      by_cases hfull : c.word ≤ head - cursors o.header .tail
      · have hact : ringStep orderings c requested s (.writer stamp) =
            some { s with
              memory := mem
              writer := .idle
              refusals :=
                s.refusals ++ [.full s.pushed.length (s.tailCount stamp)] } := by
          simp only [ringStep, writerStep, hq, hload, Option.map_some, if_pos hfull]
        rw [if_pos (show c.word ≤ head - o.header.tail from hfull)]
        exact ⟨⟨_, _, hact, ⟨o, ho, hmirrors', fun _ => rfl, fun _ => hok.capacity rfl⟩,
          .idle, rfl, rfl⟩, rfl⟩
      · have hact : ringStep orderings c requested s (.writer stamp) =
            some { s with memory := mem, writer := .write item head } := by
          simp only [ringStep, writerStep, hq, hload, Option.map_some, if_neg hfull]
        rw [if_neg (show ¬c.word ≤ head - o.header.tail from hfull)]
        exact ⟨⟨_, _, hact, ⟨o, ho, hmirrors', fun _ => rfl, fun _ => hok.capacity rfl⟩,
          .write item head, rfl, rfl⟩, rfl⟩
  | write item head =>
      simp only [attemptPush, access_eq ho hfits hmirrors.size (slot_inside c head)]
        at hstep
      cases hstep
      have hact : ringStep orderings c requested s (.writer 0) =
          some { s with
            memory := s.memory.write .writer (.slot (c.slot head).val) item
            writer := .storeHead item head } := by
        simp only [ringStep, writerStep, hq]
      exact ⟨⟨_, _, hact, ⟨_, objects_modify_self ho, hmirrors.writeSlot .writer _ item,
        fun _ => rfl, fun _ => hok.capacity rfl⟩, .storeHead item head, rfl, rfl⟩, rfl⟩
  | storeHead item head =>
      obtain ⟨stamp, mem, hstore, hmirrors'⟩ :=
        hmirrors.store orderings.pushHead .writer .head (head + 1)
      simp only [attemptPush, haccess .head rfl] at hstep
      cases hstep
      have hact : ringStep orderings c requested s (.writer stamp) =
          some { s with
            memory := mem
            writer := .idle
            pushed := s.pushed ++ [item]
            headCount := Function.update s.headCount stamp (s.pushed.length + 1) } := by
        simp only [ringStep, writerStep, hq, hstore, Option.map_some]
      exact ⟨⟨_, _, hact, ⟨_, objects_modify_self ho,
        { hmirrors' with pushed := congrArg (· ++ [item]) hmirrors.pushed },
        hok.setCursor .head (head + 1) rfl rfl⟩, .idle, rfl, rfl⟩, rfl⟩

/-- A step of the writing process is one of the writing thread. -/
theorem writer_mirrored [Inhabited α] (hfits : Fits c.word) (hback : Backs c m e s)
    (hat : WriterAt e p s.writer) (hitem : p = .writer e → ch.item.isSome = true)
    (hstep : Shm.writerStep name c.word force ch m p = some (m', p')) :
    WriterMoved c requested e s m' p' ∧ m'.names = m.names := by
  have hkeep := hback
  have hkeepAt := hat
  obtain ⟨o, ho, hmirrors, hok⟩ := hback
  have haccess : ∀ a {f}, a.length = 8 → m.access e c.word a f = f o := fun a _ ha =>
    access_header a ho hfits hfits hmirrors.size ha
  generalize hq : s.writer = q at hat
  rw [hq] at hok
  cases hat with
  | setCapacity =>
      simp only [Shm.writerStep, haccess .capacity rfl] at hstep
      cases hstep
      have hact : ringStep orderings c requested s (.writer 0) =
          some { s with
            memory := s.memory.write .writer .capacity c.word
            writer := .setHead } := by
        simp only [ringStep, writerStep, hq]
      exact ⟨⟨_, _, hact, ⟨_, objects_modify_self ho,
        hmirrors.writeCapacity .writer c.word, fun _ => rfl, fun _ => rfl⟩,
        .setHead, rfl, rfl⟩, rfl⟩
  | setHead =>
      obtain ⟨stamp, mem, hstore, hmirrors'⟩ := hmirrors.store .relaxed .writer .head 0
      simp only [Shm.writerStep, haccess .head rfl] at hstep
      cases hstep
      have hact : ringStep orderings c requested s (.writer stamp) =
          some { s with
            memory := mem
            writer := .setTail
            headCount := Function.update s.headCount stamp 0 } := by
        simp only [ringStep, writerStep, hq, hstore, Option.map_some]
      exact ⟨⟨_, _, hact, ⟨_, objects_modify_self ho, hmirrors',
        hok.setCursor .head 0 rfl rfl⟩, .setTail, rfl, rfl⟩, rfl⟩
  | setTail =>
      obtain ⟨stamp, mem, hstore, hmirrors'⟩ := hmirrors.store .relaxed .writer .tail 0
      simp only [Shm.writerStep, haccess .tail rfl] at hstep
      cases hstep
      have hact : ringStep orderings c requested s (.writer stamp) =
          some { s with
            memory := mem
            writer := .setReady
            tailCount := Function.update s.tailCount stamp 0 } := by
        simp only [ringStep, writerStep, hq, hstore, Option.map_some]
      exact ⟨⟨_, _, hact, ⟨_, objects_modify_self ho, hmirrors',
        hok.setCursor .tail 0 rfl rfl⟩, .setReady, rfl, rfl⟩, rfl⟩
  | setReady =>
      obtain ⟨stamp, mem, hstore, hmirrors'⟩ :=
        hmirrors.store orderings.storeReady .writer .ready readyMagic
      simp only [Shm.writerStep, haccess .ready rfl] at hstep
      cases hstep
      have hact : ringStep orderings c requested s (.writer stamp) =
          some { s with memory := mem, writer := .idle } := by
        simp only [ringStep, writerStep, hq, hstore, Option.map_some]
      exact ⟨⟨_, _, hact, ⟨_, objects_modify_self ho, hmirrors',
        hok.setCursor .ready readyMagic rfl rfl⟩, .idle, rfl, rfl⟩, rfl⟩
  | idle =>
      obtain ⟨item, hsome⟩ := Option.isSome_iff_exists.1 (hitem rfl)
      simp only [Shm.writerStep, hsome] at hstep
      cases hstep
      have hact : ringStep orderings c requested s (.callPush item) =
          some { s with writer := .loadHead item } := by
        simp only [ringStep, hq]
      exact ⟨⟨_, _, hact, ⟨o, ho, hmirrors, fun _ => rfl, fun _ => hok.capacity rfl⟩,
        .loadHead item, rfl, rfl⟩, rfl⟩
  | loadHead | loadTail | write | storeHead =>
      exact push_mirrored hfits hkeep hkeepAt hstep

/-- An access of an attempt to pop is one of the reading thread, which has seen the
capacity of the writer. -/
theorem pop_mirrored (hfits : Fits c.word) (hback : Backs c m e s)
    (hblank : s.writer.blank = false) {pc : PopPc α}
    (hat : ReaderAt e (.popping e pc) s.reader)
    (hstep : attemptPop c.word m e pc = (m', p')) :
    ReaderMoved c c.word e s m' p' ∧ m'.names = m.names := by
  obtain ⟨o, ho, hmirrors, hok⟩ := hback
  have haccess : ∀ a {f}, a.length = 8 → m.access e c.word a f = f o := fun a _ ha =>
    access_header a ho hfits hfits hmirrors.size ha
  generalize hq : s.reader = q at hat
  cases hat with
  | loadTail =>
      obtain ⟨stamp, mem, hload, hmirrors'⟩ := hmirrors.load .relaxed .reader .tail
      simp only [attemptPop, haccess .tail rfl] at hstep
      cases hstep
      have hact : ringStep orderings c c.word s (.reader stamp) =
          some { s with
            memory := mem
            reader := .loadHead (cursors o.header .tail) } := by
        simp only [ringStep, readerStep, hq, hload, Option.map_some]
      exact ⟨.access hact ⟨o, ho, hmirrors', hok⟩ (.loadHead _) rfl
        (fun _ => hblank) (fun _ => rfl), rfl⟩
  | loadHead tail =>
      obtain ⟨stamp, mem, hload, hmirrors'⟩ :=
        hmirrors.load orderings.popHead .reader .head
      simp only [attemptPop, haccess .head rfl] at hstep
      cases hstep
      by_cases hempty : cursors o.header .head = tail
      · have hact : ringStep orderings c c.word s (.reader stamp) =
            some { s with
              memory := mem
              reader := .idle
              refusals :=
                s.refusals ++ [.empty s.popped.length (s.headCount stamp)] } := by
          simp only [ringStep, readerStep, hq, hload, Option.map_some, if_pos hempty]
        rw [if_pos (show o.header.head = tail from hempty)]
        exact ⟨.access hact ⟨o, ho, hmirrors', hok⟩ .idle rfl
          (fun _ => hblank) (fun _ => rfl), rfl⟩
      · have hact : ringStep orderings c c.word s (.reader stamp) =
            some { s with memory := mem, reader := .read tail } := by
          simp only [ringStep, readerStep, hq, hload, Option.map_some, if_neg hempty]
        rw [if_neg (show ¬o.header.head = tail from hempty)]
        exact ⟨.access hact ⟨o, ho, hmirrors', hok⟩ (.read tail) rfl
          (fun _ => hblank) (fun _ => rfl), rfl⟩
  | read tail =>
      simp only [attemptPop, access_eq ho hfits hmirrors.size (slot_inside c tail)]
        at hstep
      cases hstep
      have hvalue : (s.memory.read .reader (.slot (slotIndex c.word tail))).1 =
          o.slots (slotIndex c.word tail) := hmirrors.slots _
      have hact : ringStep orderings c c.word s (.reader 0) =
          some { s with
            memory := (s.memory.read .reader (.slot (slotIndex c.word tail))).2
            reader := .storeTail tail (o.slots (slotIndex c.word tail)) } := by
        rw [← hvalue]
        simp only [ringStep, readerStep, hq, slotIndex]
      exact ⟨.access hact ⟨o, ho, hmirrors.read .reader _, hok⟩ (.storeTail tail _) rfl
        (fun _ => hblank) (fun _ => rfl), rfl⟩
  | storeTail tail item =>
      obtain ⟨stamp, mem, hstore, hmirrors'⟩ :=
        hmirrors.store orderings.popTail .reader .tail (tail + 1)
      simp only [attemptPop, haccess .tail rfl] at hstep
      cases hstep
      have hact : ringStep orderings c c.word s (.reader stamp) =
          some { s with
            memory := mem
            reader := .idle
            popped := s.popped ++ [item]
            tailCount := Function.update s.tailCount stamp (s.popped.length + 1) } := by
        simp only [ringStep, readerStep, hq, hstore, Option.map_some]
      exact ⟨.access hact ⟨_, objects_modify_self ho,
        { hmirrors' with popped := congrArg (· ++ [item]) hmirrors.popped },
        hok.setCursor .tail (tail + 1) hblank hblank⟩ .idle rfl
        (fun _ => hblank) (fun _ => rfl), rfl⟩

/-- A step of the reading process is at most one of the reading thread. -/
theorem reader_mirrored (hfits : Fits c.word) (hrequested : Fits requested)
    (hback : Backs c m e s) (hname : m.names name = some e) (hat : ReaderAt e p s.reader)
    (hopened : s.reader.opened = true → s.writer.blank = false)
    (hattached : s.reader.attached = true → requested = c.word)
    (hitem : p = .reader e → ch.item.isSome = true)
    (hstep : Shm.readerStep name requested ch m p = some (m', p')) :
    ReaderMoved c requested e s m' p' ∧ m'.names = m.names := by
  have hkeep := hback
  have hkeepAt := hat
  obtain ⟨o, ho, hmirrors, hok⟩ := hback
  have haccess : ∀ a {f}, a.length = 8 → m.access e requested a f = f o := fun a _ ha =>
    access_header a ho hfits hrequested hmirrors.size ha
  generalize hq : s.reader = q at hat hopened hattached
  cases hat with
  | start =>
      simp only [Shm.readerStep] at hstep
      split at hstep
      · cases hstep
        exact ⟨.gives_up hkeep hq .panicked, rfl⟩
      · split at hstep
        · cases hstep
          exact ⟨.gives_up hkeep hq (.failed _), rfl⟩
        · cases hstep
          exact ⟨.waits hkeep hq .lookup, rfl⟩
  | lookup =>
      simp only [Shm.readerStep, hname] at hstep
      split at hstep
      · cases hstep
        exact ⟨.gives_up hkeep hq (.failed _), rfl⟩
      · next hnone =>
        cases hnone
      · next hsome =>
        cases hsome
        cases hstep
        exact ⟨.waits hkeep hq .mapSegment, rfl⟩
  | mapSegment =>
      simp only [Shm.readerStep] at hstep
      split at hstep
      · cases hstep
        exact ⟨.gives_up hkeep hq (.failed _), rfl⟩
      · cases hstep
        exact ⟨.waits hkeep hq .loadReady, rfl⟩
  | loadReady =>
      obtain ⟨stamp, mem, hload, hmirrors'⟩ :=
        hmirrors.load orderings.loadReady .reader .ready
      simp only [Shm.readerStep, haccess .ready rfl] at hstep
      cases hstep
      by_cases hready : cursors o.header .ready = readyMagic
      · have hact : ringStep orderings c requested s (.reader stamp) =
            some { s with memory := mem, reader := .readCapacity } := by
          simp only [ringStep, readerStep, hq, hload, Option.map_some, if_pos hready]
        rw [if_pos (show o.header.ready = readyMagic from hready)]
        exact ⟨.access hact ⟨o, ho, hmirrors', hok⟩ .loadCapacity rfl
          (fun _ => hok.ready hready) (fun h => by cases h), rfl⟩
      · have hact : ringStep orderings c requested s (.reader stamp) =
            some { s with memory := mem, reader := .awaitReady } := by
          simp only [ringStep, readerStep, hq, hload, Option.map_some, if_neg hready]
        rw [if_neg (show ¬o.header.ready = readyMagic from hready)]
        exact ⟨.access hact ⟨o, ho, hmirrors', hok⟩ .checkDeadline rfl
          (fun h => by cases h) (fun h => by cases h), rfl⟩
  | checkDeadline =>
      simp only [Shm.readerStep] at hstep
      cases hstep
      split
      · exact ⟨.gives_up hkeep hq .timedOut, rfl⟩
      · exact ⟨.waits hkeep hq .loadReady, rfl⟩
  | loadCapacity =>
      have hblank := hopened rfl
      have hcapacity : (s.memory.read .reader .capacity).1 = c.word :=
        hmirrors.capacity.trans (hok.capacity hblank)
      simp only [Shm.readerStep, haccess .capacity rfl, hok.capacity hblank] at hstep
      cases hstep
      by_cases hsame : c.word = requested
      · have hact : ringStep orderings c requested s (.reader 0) =
            some { s with
              memory := (s.memory.read .reader .capacity).2
              reader := .idle } := by
          simp only [ringStep, readerStep, hq, hcapacity, if_pos hsame]
        rw [if_pos hsame]
        exact ⟨.access hact ⟨o, ho, hmirrors.read .reader .capacity, hok⟩ .idle rfl
          (fun _ => hblank) (fun _ => hsame.symm), rfl⟩
      · have hact : ringStep orderings c requested s (.reader 0) =
            some { s with
              memory := (s.memory.read .reader .capacity).2
              reader := .failed } := by
          simp only [ringStep, readerStep, hq, hcapacity, if_neg hsame]
        rw [if_neg hsame]
        exact ⟨.access hact ⟨o, ho, hmirrors.read .reader .capacity, hok⟩
          (.mismatch _ _) rfl (fun h => by cases h) (fun h => by cases h), rfl⟩
  | idle =>
      obtain ⟨item, hsome⟩ := Option.isSome_iff_exists.1 (hitem rfl)
      simp only [Shm.readerStep, hsome] at hstep
      cases hstep
      have hact : ringStep orderings c requested s .callPop =
          some { s with reader := .loadTail } := by
        simp only [ringStep, hq]
      exact ⟨.access hact ⟨o, ho, hmirrors, hok⟩ .loadTail rfl (fun _ => hopened rfl)
        (fun _ => hattached rfl), rfl⟩
  | loadTail | loadHead | read | storeTail =>
      have hagree := hattached rfl
      subst hagree
      exact pop_mirrored hfits hkeep (hopened rfl) hkeepAt (Option.some.inj hstep)
  | panicked | failed | timedOut | mismatch => cases hstep

end Steps

/-! ## Runs of two processes -/

/-- A writer and a reader of the segment `name`. -/
def pair (name : ShmName) (c : Capacity) (force : Bool) (requested : UInt64) :
    Role → ShmCall
  | .writer => .create name c.word force
  | .reader => .attach name requested

/-- Between two attempts, where a half may be dropped. -/
def betweenAttempts : ShmPc α → Bool
  | .writer _ => true
  | .reader _ => true
  | _ => false

/-- The process is not killed, and does not drop its half. -/
def keepsHalf (w : World (ShmMem α) (ShmPc α) Role) (a : Turn Role (ShmChoice α)) :
    Bool :=
  !a.choice.kill && (a.choice.item.isSome || !betweenAttempts (w.pc a.thread))

section Runs

variable [Inhabited α] {requested : UInt64} {e : Nat} {name : ShmName} {force : Bool}
  {w w' : World (ShmMem α) (ShmPc α) Role} {s : SharedRing α}

theorem step_mirrored (hfits : Fits c.word) (hrequested : Fits requested)
    (h : Mapped name c requested e w s) {a : Turn Role (ShmChoice α)}
    (hkeeps : keepsHalf w a = true)
    (hstep : turn (shmNext (pair name c force requested)) w a = some w') :
    ∃ acts s', exec (ringStep orderings c requested) s acts = some s' ∧
      Mapped name c requested e w' s' := by
  obtain ⟨thread, ch⟩ := a
  simp only [keepsHalf, Bool.and_eq_true, Bool.not_eq_true', Bool.or_eq_true] at hkeeps
  obtain ⟨hkill, hitem⟩ := hkeeps
  obtain ⟨m, p, hnext, rfl⟩ := turn_eq_some.1 hstep
  simp only [shmNext, hkill, Bool.false_eq_true, if_false] at hnext
  have hitem' : ∀ q, w.pc thread = q → betweenAttempts q = true →
      ch.item.isSome = true := by
    intro q hq hbetween
    subst hq
    refine hitem.resolve_right fun hnot => ?_
    rw [hbetween] at hnot
    cases hnot
  cases thread with
  | writer =>
      obtain ⟨⟨act, s', hact, hback, hat, hreader, hblank⟩, hnames⟩ :=
        writer_mirrored hfits h.object h.writer (fun hq => hitem' _ hq rfl) hnext
      refine ⟨[act], s', exec_cons_eq_some.2 ⟨s', hact, rfl⟩, hback, hnames ▸ h.named,
        ?_, ?_, fun _ => hblank, hreader ▸ h.attached⟩
      · simpa only [Function.update_self] using hat
      · simpa only [Function.update_of_ne (show Role.reader ≠ .writer by decide),
          hreader] using h.reader
  | reader =>
      obtain ⟨⟨acts, s', hacts, hback, hat, hwriter, hopened, hattached⟩, hnames⟩ :=
        reader_mirrored hfits hrequested h.object h.named h.reader h.opened h.attached
          (fun hq => hitem' _ hq rfl) hnext
      refine ⟨acts, s', hacts, hback, hnames ▸ h.named, ?_, ?_, hwriter ▸ hopened,
        hattached⟩
      · simpa only [Function.update_of_ne (show Role.writer ≠ .reader by decide),
          hwriter] using h.writer
      · simpa only [Function.update_self] using hat

/-- The writer has just mapped a new segment, and the reader has seen nothing of it. -/
theorem mapped_fresh
    (hobject : w.mem.objects[e]? = some (Object.empty.resize (mappingSize c.word)))
    (hnamed : w.mem.names name = some e) (hwriter : w.pc .writer = .setCapacity e)
    (hreader : ReaderAt e (w.pc .reader) .awaitReady) :
    Mapped name c requested e w (freshSegment default) where
  object := by
    refine ⟨_, hobject, ⟨rfl, ⟨fun _ => 0, ?_⟩, rfl, fun i => ?_, rfl, rfl⟩, ?_, ?_⟩
    · have hzero : cursors (Object.empty.resize (mappingSize c.word) : Object α).header =
          fun _ => 0 := by
        funext l
        cases l <;> rfl
      rw [hzero]
      exact Memory.Latest.fresh ..
    · simp only [Object.resize, Object.empty]
      rfl
    · intro h
      exact absurd (show (0 : UInt64) = readyMagic from h) (by decide)
    · intro h
      cases h
  named := hnamed
  writer := hwriter ▸ .setCapacity
  reader := hreader
  opened h := by cases h
  attached h := by cases h

/-- Every run of the two processes, from the writer's mapping on and as long as neither
half is dropped, is a run over weak memory that ends with the same contents. -/
theorem accesses_mirrored (hfits : Fits c.word) (hrequested : Fits requested)
    (hobject : w.mem.objects[e]? = some (Object.empty.resize (mappingSize c.word)))
    (hnamed : w.mem.names name = some e) (hwriter : w.pc .writer = .setCapacity e)
    (hreader : ReaderAt e (w.pc .reader) .awaitReady)
    {as : List (Turn Role (ShmChoice α))}
    (hkeeps :
      meets (turn (shmNext (pair name c force requested))) keepsHalf w as = true)
    (hrun : exec (turn (shmNext (pair name c force requested))) w as = some w') :
    ∃ acts s',
      exec (ringStep orderings c requested) (freshSegment default) acts = some s' ∧
        Mapped name c requested e w' s' := by
  refine exec_invariant_of_meets (P := fun w => ∃ acts s',
    exec (ringStep orderings c requested) (freshSegment default) acts = some s' ∧
      Mapped name c requested e w s') ?_ hkeeps hrun
    ⟨[], _, rfl, mapped_fresh hobject hnamed hwriter hreader⟩
  rintro u a v hkeep ⟨acts, t, hacts, hmapped⟩ hstep
  obtain ⟨more, t', hmore, hmapped'⟩ :=
    step_mirrored hfits hrequested hmapped hkeep hstep
  exact ⟨acts ++ more, t', exec_append_eq_some.2 ⟨t, hacts, hmore⟩, hmapped'⟩

end Runs

end Candlestore.Weak
