import Mathlib.Algebra.BigOperators.Group.List.Basic
import Mathlib.Algebra.Order.AbsoluteValue.Basic
import Mathlib.Algebra.Order.Ring.Abs
import Mathlib.Tactic.Linarith
import Candlestore.Lib.System
import Candlestore.Matching.Order

/-!
# The paper executor and its position file

The executor of `market_hub` pops signals, passes each through the risk gates and
keeps a position.  With a state file it writes the position after every executed
signal, to a temp file that is then renamed, and loads it when it starts.  This
file models the process with the two files, over any number of runs: a run ends
in a crash, which may fall between any two steps and may leave anything in the
temp file, and the next run starts from what the state file holds.

`RunRecord` keeps what the code does not: the position a run loaded, the signals
it accepted, and whether a write or a rename of it failed.
-/

namespace Candlestore.Hub

open Lib Matching

/-- The part of a `Signal` the executor acts on. -/
structure Signal (F : Type) where
  side : Side
  qty : F
  deriving DecidableEq, Repr

/-- The limits, from the environment. -/
structure RiskGates (F : Type) where
  maxAbsPosition : F
  maxQtyPerSignal : F
  maxSignalsPerSec : Nat

/-- Why a signal is not acted on. -/
inductive RiskRejection where
  | invalidQty
  | positionLimitExceeded
  | rateLimitExceeded
  deriving DecidableEq, Repr

/-- Counts accepted signals in the current bucket of one second.  An `Instant`
is its nanoseconds. -/
structure RateLimiter where
  bucketStart : Nat
  count : Nat
  max : Nat
  deriving DecidableEq, Repr

namespace RateLimiter

/-- `new`: an empty bucket that starts now. -/
def new (max now : Nat) : RateLimiter := ⟨now, 0, max⟩

/-- A bucket of the limiter is a second. -/
def nanosPerSec : Nat := 1000000000

/-- `try_accept`, at the clock reading `now`. -/
def tryAccept (r : RateLimiter) (now : Nat) : Bool × RateLimiter :=
  let r :=
    if nanosPerSec ≤ now - r.bucketStart then { r with bucketStart := now, count := 0 }
    else r
  if r.max ≤ r.count then (false, r) else (true, { r with count := r.count + 1 })

end RateLimiter

/-- What a file holds: the printed position, or something that does not parse. -/
inductive FileText (F : Type) where
  | number (value : F)
  | garbage
  deriving DecidableEq, Repr

/-- The next step of the executor: pop a signal, or one half of
`persist_position`. -/
inductive ExecPc where
  | poll
  | writeTemp
  | rename
  deriving DecidableEq, Repr

/-- The locals and the counters of the executor thread, and where it is in its loop. -/
structure Executor (F : Type) where
  position : F
  totalSignals : Nat
  signalsRejected : Nat
  persistErrors : Nat
  rate : RateLimiter
  pc : ExecPc
  deriving DecidableEq, Repr

/-- What one process has done, from its start to its death. -/
structure RunRecord (F : Type) where
  loaded : F
  accepted : List (Signal F)
  persistFailed : Bool
  deriving DecidableEq, Repr

/-- The two files, the process if there is one, and the runs so far: the newest
one and those before it, newest first. -/
structure Machine (F : Type) where
  stateFile : Option (FileText F)
  tempFile : Option (FileText F)
  process : Option (Executor F)
  run : RunRecord F
  past : List (RunRecord F)

/-- What can happen to the executor, and to the process it runs in. -/
inductive HubAct (F : Type) where
  | start (now : Nat)
  /-- `try_pop` returns a signal, and the clock reads `now` if it is asked. -/
  | signal (sig : Signal F) (now : Nat)
  /-- The write of the temp file; one that fails leaves `left` there. -/
  | writeTemp (ok : Bool) (left : Option (FileText F))
  | rename (ok : Bool)
  /-- The process dies, at any point, and leaves `left` in the temp file. -/
  | crash (left : Option (FileText F))

section Model

variable {F : Type} [SignedF64 F]

/-- The signed quantity of a signal. -/
def Signal.delta (sig : Signal F) : F :=
  match sig.side with
  | .buy => sig.qty
  | .sell => -sig.qty

/-- `check_risk`: quantity, then position, then rate. -/
def checkRisk (sig : Signal F) (position delta : F) (gates : RiskGates F)
    (rate : RateLimiter) (now : Nat) : Except RiskRejection Unit × RateLimiter :=
  if !F64.isFinite sig.qty || sig.qty ≤ F64.lit 0 || gates.maxQtyPerSignal < sig.qty then
    (.error .invalidQty, rate)
  else
    let newPos := position + delta
    if !F64.isFinite newPos || gates.maxAbsPosition < SignedF64.abs newPos then
      (.error .positionLimitExceeded, rate)
    else
      let (accepted, rate) := rate.tryAccept now
      if accepted then (.ok (), rate) else (.error .rateLimitExceeded, rate)

/-- `load_position`, for a file that can be read. -/
def loadPosition : Option (FileText F) → F
  | some (.number p) => if F64.isFinite p then p else F64.lit 0
  | some .garbage => F64.lit 0
  | none => F64.lit 0

namespace Executor

/-- The executor thread before its loop. -/
def new (gates : RiskGates F) (position : F) (now : Nat) : Executor F :=
  ⟨position, 0, 0, 0, .new gates.maxSignalsPerSec now, .poll⟩

/-- The loop body for a popped signal, up to `persist_position`. -/
def onSignal (gates : RiskGates F) (ex : Executor F) (sig : Signal F) (now : Nat) :
    Except RiskRejection Unit × Executor F :=
  let (result, rate) := checkRisk sig ex.position sig.delta gates ex.rate now
  match result with
  | .error reason =>
      (.error reason, { ex with
        rate := rate
        signalsRejected := ex.signalsRejected + 1 })
  | .ok () =>
      (.ok (), { ex with
        rate := rate
        totalSignals := ex.totalSignals + 1
        position := ex.position + sig.delta
        pc := .writeTemp })

/-- A failed half of `persist_position` is counted, and the loop goes on. -/
def persistFailed (ex : Executor F) : Executor F :=
  { ex with persistErrors := ex.persistErrors + 1, pc := .poll }

end Executor

namespace Machine

/-- Before the first start: no files, and no signal accepted from position zero. -/
def first : Machine F := ⟨none, none, none, ⟨F64.lit 0, [], false⟩, []⟩

/-- `executor_thread` up to its loop, after the process has started. -/
def start (gates : RiskGates F) (m : Machine F) (now : Nat) : Machine F :=
  let loaded := loadPosition m.stateFile
  { m with
    process := some (.new gates loaded now)
    run := ⟨loaded, [], false⟩
    past := m.run :: m.past }

/-- One popped signal. -/
def signal (gates : RiskGates F) (m : Machine F) (ex : Executor F) (sig : Signal F)
    (now : Nat) : Machine F :=
  let (result, ex') := ex.onSignal gates sig now
  match result with
  | .ok () =>
      { m with
        process := some ex'
        run := { m.run with accepted := m.run.accepted ++ [sig] } }
  | .error _ => { m with process := some ex' }

/-- The write of `persist_position`. -/
def writeTemp (m : Machine F) (ex : Executor F) (ok : Bool)
    (left : Option (FileText F)) : Machine F :=
  if ok then
    { m with
      tempFile := some (.number ex.position)
      process := some { ex with pc := .rename } }
  else
    { m with
      tempFile := left
      process := some ex.persistFailed
      run := { m.run with persistFailed := true } }

/-- The rename of `persist_position`. -/
def rename (m : Machine F) (ex : Executor F) (ok : Bool) : Machine F :=
  if ok then
    { m with
      stateFile := m.tempFile
      tempFile := none
      process := some { ex with pc := .poll } }
  else
    { m with
      process := some ex.persistFailed
      run := { m.run with persistFailed := true } }

end Machine

/-- One such event, where the executor is at the point for it. -/
def machineStep (gates : RiskGates F) (m : Machine F) : HubAct F → Option (Machine F)
  | .start now => if m.process.isNone then some (m.start gates now) else none
  | .signal sig now => m.process.bind fun ex =>
      if ex.pc = .poll then some (m.signal gates ex sig now) else none
  | .writeTemp ok left => m.process.bind fun ex =>
      if ex.pc = .writeTemp then some (m.writeTemp ex ok left) else none
  | .rename ok => m.process.bind fun ex =>
      if ex.pc = .rename then some (m.rename ex ok) else none
  | .crash left => m.process.map fun _ => { m with process := none, tempFile := left }

end Model

/-! ## The gates -/

theorem checkRisk_bound {sig : Signal ℚ} {position delta : ℚ} {gates : RiskGates ℚ}
    {rate rate' : RateLimiter} {now : Nat}
    (h : checkRisk sig position delta gates rate now = (.ok (), rate')) :
    |position + delta| ≤ gates.maxAbsPosition := by
  unfold checkRisk at h
  split at h
  · cases (Prod.mk.inj h).1
  · dsimp only at h
    split at h
    · cases (Prod.mk.inj h).1
    · next hpos =>
        simp only [Bool.or_eq_true, decide_eq_true_eq, not_or, not_lt] at hpos
        exact hpos.2

/-- What a popped signal does to the executor. -/
theorem onSignal_cases (gates : RiskGates ℚ) (ex : Executor ℚ) (sig : Signal ℚ)
    (now : Nat) :
    (∃ reason ex', ex.onSignal gates sig now = (.error reason, ex') ∧
        ex'.position = ex.position ∧ ex'.totalSignals = ex.totalSignals ∧
        ex'.pc = ex.pc) ∨
      ∃ ex', ex.onSignal gates sig now = (.ok (), ex') ∧
        ex'.position = ex.position + sig.delta ∧ ex'.totalSignals = ex.totalSignals + 1 ∧
        ex'.pc = .writeTemp ∧ |ex'.position| ≤ gates.maxAbsPosition := by
  unfold Executor.onSignal
  cases hrisk : checkRisk sig ex.position sig.delta gates ex.rate now with
  | mk result rate =>
      cases result with
      | error reason => exact Or.inl ⟨reason, _, rfl, rfl, rfl, rfl⟩
      | ok u => exact Or.inr ⟨_, rfl, rfl, rfl, rfl, checkRisk_bound hrisk⟩

/-! ## The invariant -/

/-- The signed quantity of a list of signals. -/
def signedQty (sigs : List (Signal ℚ)) : ℚ := (sigs.map Signal.delta).sum

theorem signedQty_snoc (sigs : List (Signal ℚ)) (sig : Signal ℚ) :
    signedQty (sigs ++ [sig]) = signedQty sigs + sig.delta := by
  simp [signedQty]

/-- The next run loaded the position held after some of the signals the older
one accepted, and after all but the last if none of its persists failed. -/
def Follows (older newer : RunRecord ℚ) : Prop :=
  ∃ j ≤ older.accepted.length,
    newer.loaded = older.loaded + signedQty (older.accepted.take j) ∧
    (older.persistFailed = false → older.accepted.length ≤ j + 1)

/-- How far the state file may be behind the accepted signals while no persist
has failed. -/
def Machine.lag (m : Machine ℚ) : Nat :=
  match m.process with
  | some ex => if ex.pc = .poll then 0 else 1
  | none => 1

/-- The state file holds the position after the first `j` signals of the run. -/
def Machine.Saved (m : Machine ℚ) : Prop :=
  ∃ j ≤ m.run.accepted.length,
    loadPosition m.stateFile = m.run.loaded + signedQty (m.run.accepted.take j) ∧
    (m.run.persistFailed = false → m.run.accepted.length ≤ j + m.lag)

/-- What holds of a process in its run. -/
structure Running (gates : RiskGates ℚ) (m : Machine ℚ) (ex : Executor ℚ) : Prop where
  position : ex.position = m.run.loaded + signedQty m.run.accepted
  executed : ex.totalSignals = m.run.accepted.length
  bound : |ex.position| ≤ max gates.maxAbsPosition 0
  temp : ex.pc = .rename → m.tempFile = some (.number ex.position)

/-- The position on disk is within the limit, and each process has started from what
the one before it saved. -/
structure MachineInv (gates : RiskGates ℚ) (m : Machine ℚ) : Prop where
  bound : |loadPosition m.stateFile| ≤ max gates.maxAbsPosition 0
  saved : m.Saved
  running : ∀ ex, m.process = some ex → Running gates m ex
  chain : (m.run :: m.past).IsChain fun newer older => Follows older newer
  origin : m.process = none ∧ m.run = ⟨0, [], false⟩ ∧ m.past = [] ∨
    m.past.getLast? = some ⟨0, [], false⟩

namespace MachineInv

variable {gates : RiskGates ℚ} {m m' : Machine ℚ} {ex : Executor ℚ}

theorem first (gates : RiskGates ℚ) : MachineInv gates Machine.first where
  bound := by
    show |(0 : ℚ)| ≤ _
    rw [abs_zero]
    exact le_max_right _ _
  saved := ⟨0, Nat.le_refl 0, by simp [Machine.first, loadPosition, signedQty, F64.lit],
    fun _ => Nat.zero_le _⟩
  running := fun _ h => by cases h
  chain := List.IsChain.singleton _
  origin := Or.inl ⟨rfl, rfl, rfl⟩

/-- The chain of the runs depends on the newest one only through what it
loaded. -/
theorem isChain_of_loaded (h : MachineInv gates m) (hpast : m'.past = m.past)
    (hloaded : m'.run.loaded = m.run.loaded) :
    (m'.run :: m'.past).IsChain fun newer older => Follows older newer := by
  have hchain := h.chain
  rw [hpast]
  cases hcase : m.past with
  | nil => exact List.IsChain.singleton _
  | cons r past =>
      rw [hcase, List.isChain_cons_cons] at hchain
      refine List.isChain_cons_cons.2 ⟨?_, hchain.2⟩
      unfold Follows
      rw [hloaded]
      exact hchain.1

theorem origin_of_running (h : MachineInv gates m) (hex : m.process = some ex) :
    m.past.getLast? = some ⟨0, [], false⟩ := by
  rcases h.origin with ⟨hdown, _⟩ | hlast
  · rw [hex] at hdown
    cases hdown
  · exact hlast

/-- A run starts from what the state file holds. -/
theorem start (h : MachineInv gates m) (hdown : m.process = none) (now : Nat) :
    MachineInv gates (m.start gates now) where
  bound := h.bound
  saved := by
    refine ⟨0, Nat.le_refl 0, ?_, fun _ => Nat.le_refl 0⟩
    simp [Machine.start, signedQty]
  running := by
    intro ex hex
    cases hex
    refine ⟨?_, rfl, h.bound, fun hpc => by cases hpc⟩
    simp [Machine.start, Executor.new, signedQty]
  chain := by
    obtain ⟨j, hj, hload, hlag⟩ := h.saved
    refine List.isChain_cons_cons.2 ⟨⟨j, hj, hload, ?_⟩, h.chain⟩
    rw [Machine.lag, hdown] at hlag
    exact hlag
  origin := by
    refine Or.inr ?_
    show (m.run :: m.past).getLast? = _
    rcases h.origin with ⟨_, hrun, hpast⟩ | hlast
    · rw [hpast, hrun]
      rfl
    · rw [List.getLast?_cons, hlast]
      rfl

/-- A rejected signal changes neither the position nor the record of the run. -/
theorem reject (h : MachineInv gates m) (hex : m.process = some ex) {ex' : Executor ℚ}
    (hposition : ex'.position = ex.position)
    (htotal : ex'.totalSignals = ex.totalSignals) (hpc : ex'.pc = ex.pc) :
    MachineInv gates { m with process := some ex' } where
  bound := h.bound
  saved := by
    obtain ⟨j, hj, hload, hlag⟩ := h.saved
    refine ⟨j, hj, hload, ?_⟩
    rw [Machine.lag, hex] at hlag
    rw [Machine.lag]
    simpa only [hpc] using hlag
  running := by
    intro x hx
    obtain rfl := Option.some.inj hx
    have hrun := h.running ex hex
    refine ⟨?_, ?_, ?_, ?_⟩
    · rw [hposition]
      exact hrun.position
    · rw [htotal]
      exact hrun.executed
    · rw [hposition]
      exact hrun.bound
    · rw [hposition, hpc]
      exact hrun.temp
  chain := h.chain
  origin := Or.inr (h.origin_of_running hex)

/-- An accepted signal moves the position within the limit, ahead of the state
file by one signal. -/
theorem accept (h : MachineInv gates m) (hex : m.process = some ex)
    (hpoll : ex.pc = .poll) {ex' : Executor ℚ} {sig : Signal ℚ}
    (hposition : ex'.position = ex.position + sig.delta)
    (htotal : ex'.totalSignals = ex.totalSignals + 1) (hpc : ex'.pc = .writeTemp)
    (hbound : |ex'.position| ≤ gates.maxAbsPosition) :
    MachineInv gates { m with
      process := some ex'
      run := { m.run with accepted := m.run.accepted ++ [sig] } } where
  bound := h.bound
  saved := by
    obtain ⟨j, hj, hload, hlag⟩ := h.saved
    rw [Machine.lag, hex] at hlag
    refine ⟨j, ?_, ?_, ?_⟩
    · rw [List.length_append]
      exact Nat.le_add_right_of_le hj
    · rw [List.take_append_of_le_length hj]
      exact hload
    · intro hok
      have hle := hlag hok
      simp only [hpoll, if_true] at hle
      simp only [Machine.lag, hpc, List.length_append, List.length_singleton]
      exact Nat.succ_le_succ hle
  running := by
    intro x hx
    obtain rfl := Option.some.inj hx
    have hrun := h.running ex hex
    refine ⟨?_, ?_, le_trans hbound (le_max_left _ _), fun hren => ?_⟩
    · rw [hposition, hrun.position, signedQty_snoc, add_assoc]
    · rw [htotal, hrun.executed, List.length_append, List.length_singleton]
    · rw [hpc] at hren
      cases hren
  chain := h.isChain_of_loaded rfl rfl
  origin := Or.inr (h.origin_of_running hex)

/-- A failed half of `persist_position` leaves the state file as it was. -/
theorem persistFailed (h : MachineInv gates m) (hex : m.process = some ex)
    (left : Option (FileText ℚ)) :
    MachineInv gates { m with
      tempFile := left
      process := some ex.persistFailed
      run := { m.run with persistFailed := true } } where
  bound := h.bound
  saved := by
    obtain ⟨j, hj, hload, _⟩ := h.saved
    exact ⟨j, hj, hload, fun hok => by cases hok⟩
  running := by
    intro x hx
    obtain rfl := Option.some.inj hx
    have hrun := h.running ex hex
    exact ⟨hrun.position, hrun.executed, hrun.bound, fun hpc => by cases hpc⟩
  chain := h.isChain_of_loaded rfl rfl
  origin := Or.inr (h.origin_of_running hex)

theorem written (h : MachineInv gates m) (hex : m.process = some ex)
    (hpc : ex.pc = .writeTemp) :
    MachineInv gates { m with
      tempFile := some (.number ex.position)
      process := some { ex with pc := .rename } } where
  bound := h.bound
  saved := by
    obtain ⟨j, hj, hload, hlag⟩ := h.saved
    refine ⟨j, hj, hload, ?_⟩
    simpa [Machine.lag, hex, hpc] using hlag
  running := by
    intro x hx
    obtain rfl := Option.some.inj hx
    have hrun := h.running ex hex
    exact ⟨hrun.position, hrun.executed, hrun.bound, fun _ => rfl⟩
  chain := h.chain
  origin := Or.inr (h.origin_of_running hex)

/-- The rename brings the state file up to the position. -/
theorem renamed (h : MachineInv gates m) (hex : m.process = some ex)
    (hpc : ex.pc = .rename) :
    MachineInv gates { m with
      stateFile := m.tempFile
      tempFile := none
      process := some { ex with pc := .poll } } := by
  have hrun := h.running ex hex
  have hload : loadPosition m.tempFile = ex.position := by
    rw [hrun.temp hpc]
    rfl
  refine
    { bound := ?_
      saved := ?_
      running := ?_
      chain := h.chain
      origin := Or.inr (h.origin_of_running hex) }
  · rw [hload]
    exact hrun.bound
  · refine ⟨m.run.accepted.length, Nat.le_refl _, ?_, fun _ => Nat.le_refl _⟩
    rw [hload, List.take_length]
    exact hrun.position
  · intro x hx
    obtain rfl := Option.some.inj hx
    exact ⟨hrun.position, hrun.executed, hrun.bound, fun hren => by cases hren⟩

theorem crash (h : MachineInv gates m) (hex : m.process = some ex)
    (left : Option (FileText ℚ)) :
    MachineInv gates { m with process := none, tempFile := left } where
  bound := h.bound
  saved := by
    obtain ⟨j, hj, hload, hlag⟩ := h.saved
    refine ⟨j, hj, hload, fun hok => ?_⟩
    have hle := hlag hok
    have hone : m.lag ≤ 1 := by
      unfold Machine.lag
      rw [hex]
      dsimp only
      split <;> omega
    exact Nat.le_trans hle (Nat.add_le_add_left hone j)
  running := fun _ hx => by cases hx
  chain := h.chain
  origin := Or.inr (h.origin_of_running hex)

theorem signal (h : MachineInv gates m) (hex : m.process = some ex)
    (hpoll : ex.pc = .poll) (sig : Signal ℚ) (now : Nat) :
    MachineInv gates (m.signal gates ex sig now) := by
  unfold Machine.signal
  rcases onSignal_cases gates ex sig now with
    ⟨reason, ex', hcall, hposition, htotal, hpc⟩ |
      ⟨ex', hcall, hposition, htotal, hpc, hbound⟩
  · rw [hcall]
    exact h.reject hex hposition htotal hpc
  · rw [hcall]
    exact h.accept hex hpoll hposition htotal hpc hbound

theorem step (h : MachineInv gates m) {act : HubAct ℚ}
    (hstep : machineStep gates m act = some m') : MachineInv gates m' := by
  cases act with
  | start now =>
      simp only [machineStep, Option.isNone_iff_eq_none, Option.ite_none_right_eq_some,
        Option.some.injEq] at hstep
      obtain ⟨hdown, rfl⟩ := hstep
      exact h.start hdown now
  | signal sig now =>
      simp only [machineStep, Option.bind_eq_some_iff, Option.ite_none_right_eq_some,
        Option.some.injEq] at hstep
      obtain ⟨ex, hex, hpc, rfl⟩ := hstep
      exact h.signal hex hpc sig now
  | writeTemp ok left =>
      simp only [machineStep, Option.bind_eq_some_iff, Option.ite_none_right_eq_some,
        Option.some.injEq] at hstep
      obtain ⟨ex, hex, hpc, rfl⟩ := hstep
      cases ok with
      | true => exact h.written hex hpc
      | false => exact h.persistFailed hex left
  | rename ok =>
      simp only [machineStep, Option.bind_eq_some_iff, Option.ite_none_right_eq_some,
        Option.some.injEq] at hstep
      obtain ⟨ex, hex, hpc, rfl⟩ := hstep
      cases ok with
      | true => exact h.renamed hex hpc
      | false => exact h.persistFailed hex m.tempFile
  | crash left =>
      simp only [machineStep, Option.map_eq_some_iff] at hstep
      obtain ⟨ex, hex, rfl⟩ := hstep
      exact h.crash hex left

theorem of_exec {acts : List (HubAct ℚ)}
    (hrun : exec (machineStep gates) Machine.first acts = some m) : MachineInv gates m :=
  exec_invariant (fun _ _ _ h hstep => h.step hstep) hrun (first gates)

end MachineInv

/-! ## Every run -/

/-- A negative limit is below the position zero a first run starts with. -/
theorem negative_limit_exceeded :
    ∃ m ex,
      exec (machineStep (⟨-1, 10, 1000⟩ : RiskGates ℚ)) Machine.first [.start 0] =
        some m ∧
      m.process = some ex ∧ ¬|ex.position| ≤ -1 := by
  refine ⟨_, _, rfl, rfl, ?_⟩
  decide +kernel

/-- Over any signals, clock readings, failed persists, crashes and restarts.
The position of a running executor is within the limit, or zero if the limit is
negative; it is the position its run loaded plus the signed quantities of the
signals accepted in the run.  A signal the gates reject changes neither the
position nor the executed count nor the files, and one they accept is added to
the run.  Each run loaded the position its predecessor held after some of the
signals it had accepted, after all but the last if none of its persists failed,
and the first run loaded zero. -/
theorem executor_position_safe (gates : RiskGates ℚ) (acts : List (HubAct ℚ))
    (m : Machine ℚ) (hrun : exec (machineStep gates) Machine.first acts = some m) :
    (∀ ex, m.process = some ex →
      |ex.position| ≤ max gates.maxAbsPosition 0 ∧
      (0 ≤ gates.maxAbsPosition → |ex.position| ≤ gates.maxAbsPosition) ∧
      ex.position = m.run.loaded + signedQty m.run.accepted ∧
      ex.totalSignals = m.run.accepted.length ∧
      (ex.pc = .poll → ∀ sig now, ∃ m' ex',
        machineStep gates m (.signal sig now) = some m' ∧ m'.process = some ex' ∧
        m'.stateFile = m.stateFile ∧ m'.tempFile = m.tempFile ∧
        match (checkRisk sig ex.position sig.delta gates ex.rate now).1 with
        | .ok () => m'.run.accepted = m.run.accepted ++ [sig] ∧
            ex'.position = ex.position + sig.delta
        | .error _ => m'.run = m.run ∧ ex'.position = ex.position ∧
            ex'.totalSignals = ex.totalSignals)) ∧
    (m.run :: m.past).IsChain (fun newer older => Follows older newer) ∧
    (m.run :: m.past).getLast? = some ⟨0, [], false⟩ := by
  have h := MachineInv.of_exec hrun
  refine ⟨?_, h.chain, ?_⟩
  · intro ex hex
    have hex' := h.running ex hex
    refine ⟨hex'.bound, ?_, hex'.position, hex'.executed, ?_⟩
    · intro hnonneg
      have hbound := hex'.bound
      rwa [max_eq_left hnonneg] at hbound
    · intro hpoll sig now
      refine ⟨m.signal gates ex sig now, (ex.onSignal gates sig now).2, ?_, ?_⟩
      · simp [machineStep, hex, hpoll]
      · unfold Machine.signal Executor.onSignal
        cases hrisk : checkRisk sig ex.position sig.delta gates ex.rate now with
        | mk result rate =>
            cases result with
            | error reason => exact ⟨rfl, rfl, rfl, rfl, rfl, rfl⟩
            | ok u => exact ⟨rfl, rfl, rfl, rfl, rfl⟩
  · rcases h.origin with ⟨_, hrec, hpast⟩ | hlast
    · rw [hrec, hpast]
      rfl
    · rw [List.getLast?_cons, hlast]
      rfl

/-- Two signals are executed and the process dies before the rename of the
second; the next run starts without it. -/
theorem executor_position_safe_crash :
    let acts : List (HubAct ℚ) :=
      [.start 0, .signal ⟨.buy, 2⟩ 0, .writeTemp true none, .rename true,
        .signal ⟨.sell, 5⟩ 0, .writeTemp true none, .crash (some .garbage), .start 9,
        .signal ⟨.buy, 50⟩ 9]
    ∃ m ex, exec (machineStep ⟨100, 10, 1000⟩) Machine.first acts = some m ∧
      m.process = some ex ∧ ex.position = 2 ∧ m.run.loaded = 2 ∧ ex.signalsRejected = 1 ∧
      |ex.position| ≤ 100 ∧
      (m.run :: m.past).IsChain fun newer older => Follows older newer := by
  intro acts
  obtain ⟨m, hrun, hm⟩ := exists_exec (machineStep ⟨100, 10, 1000⟩) Machine.first acts
    (fun m => m.process.any (fun ex => ex.position = 2 ∧ ex.signalsRejected = 1) ∧
      m.run.loaded = 2)
    (by decide +kernel)
  obtain ⟨hany, hloaded⟩ := of_decide_eq_true hm
  obtain ⟨ex, hex, hp⟩ := (Option.any_eq_true _ _).1 hany
  obtain ⟨hposition, hrejected⟩ := of_decide_eq_true hp
  have hsafe := executor_position_safe ⟨100, 10, 1000⟩ acts m hrun
  exact ⟨m, ex, hrun, hex, hposition, hloaded, hrejected,
    (hsafe.1 ex hex).2.1 (by decide +kernel), hsafe.2.1⟩

end Candlestore.Hub
