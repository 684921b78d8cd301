import Candlestore.Hub.Executor
import Candlestore.Spsc.Fifo

/-!
# Shutting down the strategy and the executor

The strategy thread sends signals to the executor thread through a ring and both
leave their loops when they find the `shutdown` flag set: the strategy after
`wait_for_change` and while it finds the ring full, the executor after a pop that
returned nothing.  The flag may be set at any time.

The executor does not wait for the strategy.  `Workers` is the two threads over
the ring of `Candlestore.Spsc.Ring`, and `quietExit` is the condition under which the
executor's exit loses nothing: the ring is empty by then, and the strategy is not
between its test of the flag and the end of a push.
-/

namespace Candlestore.Hub

open Lib Spsc

/-- The next thing the strategy thread does. -/
inductive StrategyPc (F : Type) where
  /-- Spin in `wait_for_change`. -/
  | wait
  /-- Load `shutdown`. -/
  | check
  /-- Read the store and look for a crossing. -/
  | evaluate
  /-- Call `try_push`. -/
  | call (sig : Signal F)
  /-- The next step of `try_push`. -/
  | push (sig : Signal F)
  /-- `try_push` returned `false`: load `shutdown` again. -/
  | recheck (sig : Signal F)
  /-- Count the delivered signal. -/
  | count
  | exited
  deriving DecidableEq, Repr

/-- The next thing the executor thread does. -/
inductive ReceiverPc (F : Type) where
  /-- Call `try_pop`. -/
  | call
  /-- The next step of `try_pop`. -/
  | pop
  /-- Pass the signal through the gates. -/
  | risk (sig : Signal F)
  /-- `try_pop` returned nothing: load `shutdown`. -/
  | check
  | exited
  deriving DecidableEq, Repr

/-- The two threads with what they share.  `produced` is the strategy's
`signal_count`. -/
structure Workers (c : Capacity) (F : Type) where
  ring : State c (Signal F)
  shutdown : Bool
  strategy : StrategyPc F
  produced : Nat
  receiver : ReceiverPc F
  executor : Executor F

/-- A step of either thread, or the signal that ends both. -/
inductive ThreadAct (F : Type) where
  /-- The next step of the strategy; `crossing` is the signal an evaluation
  finds, if any. -/
  | strategy (crossing : Option (Signal F))
  /-- The next step of the executor, with the clock reading of its rate limit. -/
  | executor (now : Nat)
  /-- A signal handler sets `shutdown`. -/
  | shutdown

variable {c : Capacity} {F : Type}

/-- Where an access of `try_push` leaves the strategy. -/
def StrategyPc.afterPush (sig : Signal F) : PushResult → StrategyPc F
  | .full => .recheck sig
  | .pushed => .count
  | _ => .push sig

/-- Where an access of `try_pop` leaves the executor. -/
def ReceiverPc.afterPop : PopResult (Signal F) → ReceiverPc F
  | .running => .pop
  | .empty => .check
  | .popped sig => .risk sig

/-- The loop of `strategy_thread`, with the evaluation left to the environment. -/
def strategyStep (w : Workers c F) (crossing : Option (Signal F)) :
    Option (Workers c F) :=
  match w.strategy with
  | .wait => some { w with strategy := .check }
  | .check => some { w with strategy := if w.shutdown then .exited else .evaluate }
  | .evaluate => some { w with strategy := match crossing with
      | some sig => .call sig
      | none => .wait }
  | .call sig =>
      (step w.ring (.callPush .tryPush sig)).map fun ring =>
        { w with ring := ring, strategy := .push sig }
  | .push sig =>
      match w.ring.producer with
      | .running kind item stalled start pc =>
          some { w with
            ring := pushStep w.ring kind item stalled start pc
            strategy := .afterPush sig (pushResult w.ring pc) }
      | .idle => none
  | .recheck sig => some { w with strategy := if w.shutdown then .exited else .call sig }
  | .count => some { w with produced := w.produced + 1, strategy := .wait }
  | .exited => none

section Receiver

variable [SignedF64 F] (gates : RiskGates F)

/-- The loop of `executor_thread`; writing the position file is no step of its
own here. -/
def receiverStep (w : Workers c F) (now : Nat) : Option (Workers c F) :=
  match w.receiver with
  | .call =>
      (step w.ring (.callPop .tryPop)).map fun ring =>
        { w with ring := ring, receiver := .pop }
  | .pop =>
      match w.ring.consumer with
      | .running reader kind pc =>
          some { w with
            ring := popStep w.ring reader kind pc
            receiver := .afterPop (popResult w.ring pc) }
      | _ => none
  | .risk sig =>
      let ex := (w.executor.onSignal gates sig now).2
      some { w with executor := { ex with pc := .poll }, receiver := .call }
  | .check => some { w with receiver := if w.shutdown then .exited else .call }
  | .exited => none

/-- One such step. -/
def workersStep (w : Workers c F) : ThreadAct F → Option (Workers c F)
  | .strategy crossing => strategyStep w crossing
  | .executor now => receiverStep gates w now
  | .shutdown => some { w with shutdown := true }

/-- Both threads at the top of their loops, over the ring of `SpscRing::new`. -/
def Workers.start (slots : Fin c.size → Signal F) (reader : Reader c) (position : F)
    (now : Nat) : Workers c F where
  ring := .start slots (some reader)
  shutdown := false
  strategy := .wait
  produced := 0
  receiver := .call
  executor := .new gates position now

end Receiver

/-! ## What is in flight -/

/-- A popped signal that has not been through the gates. -/
def ReceiverPc.inHand : ReceiverPc F → Nat
  | .risk _ => 1
  | _ => 0

/-- A delivered signal that has not been counted. -/
def StrategyPc.uncounted : StrategyPc F → Nat
  | .count => 1
  | _ => 0

/-- Once the flag is set, the strategy leaves without another push. -/
def StrategyPc.settled : StrategyPc F → Bool
  | .evaluate => false
  | .call _ => false
  | .push _ => false
  | _ => true

/-- What a step of the strategy can be: a move that neither touches the ring nor
counts, and that goes on to the exit once the flag is set; the call of
`try_push`; a step inside it; or the count of a delivered signal. -/
theorem strategyStep_cases {w w' : Workers c F} {crossing : Option (Signal F)}
    (hstep : strategyStep w crossing = some w') :
    (∃ pc, w.strategy.uncounted = 0 ∧ pc.uncounted = 0 ∧
      (w.shutdown = true → w.strategy.settled = true → pc.settled = true) ∧
      w' = { w with strategy := pc }) ∨
    (∃ sig ring, w.strategy = .call sig ∧
      step w.ring (.callPush .tryPush sig) = some ring ∧
      w' = { w with ring := ring, strategy := .push sig }) ∨
    (∃ sig kind item stalled start pc, w.strategy = .push sig ∧
      w.ring.producer = .running kind item stalled start pc ∧
      w' = { w with
        ring := pushStep w.ring kind item stalled start pc
        strategy := .afterPush sig (pushResult w.ring pc) }) ∨
    w.strategy = .count ∧
    w' = { w with produced := w.produced + 1, strategy := .wait } := by
  unfold strategyStep at hstep
  cases hpc : w.strategy with
  | wait =>
      simp only [hpc, Option.some.injEq] at hstep
      exact .inl ⟨.check, rfl, rfl, fun _ _ => rfl, hstep.symm⟩
  | check | recheck sig =>
      simp only [hpc, Option.some.injEq] at hstep
      refine .inl ⟨_, rfl, ?_, ?_, hstep.symm⟩
      · split <;> rfl
      · intro hflag _
        rw [if_pos hflag]
        rfl
  | evaluate =>
      simp only [hpc, Option.some.injEq] at hstep
      refine .inl ⟨_, rfl, ?_, (fun _ hsettled => by cases hsettled), hstep.symm⟩
      cases crossing <;> rfl
  | call sig =>
      simp only [hpc] at hstep
      obtain ⟨ring, hring, rfl⟩ := Option.map_eq_some_iff.1 hstep
      exact .inr (.inl ⟨sig, ring, rfl, hring, rfl⟩)
  | push sig =>
      simp only [hpc] at hstep
      cases hp : w.ring.producer with
      | idle =>
          simp only [hp] at hstep
          cases hstep
      | running kind item stalled start pc =>
          simp only [hp, Option.some.injEq] at hstep
          exact .inr (.inr
            (.inl ⟨sig, kind, item, stalled, start, pc, rfl, rfl, hstep.symm⟩))
  | count =>
      simp only [hpc, Option.some.injEq] at hstep
      exact .inr (.inr (.inr ⟨rfl, hstep.symm⟩))
  | exited =>
      simp only [hpc] at hstep
      cases hstep

theorem receiverStep_cases [SignedF64 F] {gates : RiskGates F} {w w' : Workers c F}
    {now : Nat} (hstep : receiverStep gates w now = some w') :
    (∃ ring, w.receiver = .call ∧ step w.ring (.callPop .tryPop) = some ring ∧
      w' = { w with ring := ring, receiver := .pop }) ∨
    (∃ reader kind pc, w.receiver = .pop ∧ w.ring.consumer = .running reader kind pc ∧
      w' = { w with
        ring := popStep w.ring reader kind pc
        receiver := .afterPop (popResult w.ring pc) }) ∨
    (∃ sig, w.receiver = .risk sig ∧ w' = { w with
      executor := { (w.executor.onSignal gates sig now).2 with pc := .poll }
      receiver := .call }) ∨
    w.receiver = .check ∧
    w' = { w with receiver := if w.shutdown then .exited else .call } := by
  unfold receiverStep at hstep
  cases hpc : w.receiver with
  | call =>
      simp only [hpc] at hstep
      obtain ⟨ring, hring, rfl⟩ := Option.map_eq_some_iff.1 hstep
      exact .inl ⟨ring, rfl, hring, rfl⟩
  | pop =>
      simp only [hpc] at hstep
      split at hstep
      · next reader kind pc hq =>
          cases hstep
          exact .inr (.inl ⟨reader, kind, pc, rfl, hq, rfl⟩)
      · cases hstep
  | risk sig =>
      simp only [hpc, Option.some.injEq] at hstep
      exact .inr (.inr (.inl ⟨sig, rfl, hstep.symm⟩))
  | check =>
      simp only [hpc, Option.some.injEq] at hstep
      exact .inr (.inr (.inr ⟨rfl, hstep.symm⟩))
  | exited =>
      simp only [hpc] at hstep
      cases hstep

/-- The counters agree with the ring. -/
structure WorkersInv (w : Workers c F) : Prop where
  ring : Inv w.ring
  pushing : ∀ kind item stalled start pc,
    w.ring.producer = .running kind item stalled start pc → kind = .tryPush
  popping : ∀ reader kind pc, w.ring.consumer = .running reader kind pc → kind = .tryPop
  produced : w.ring.channel.pushed.length = w.produced + w.strategy.uncounted
  handled : w.ring.channel.popped.length =
    w.executor.totalSignals + w.executor.signalsRejected + w.receiver.inHand

namespace WorkersInv

variable {w w' : Workers c F}

/-- What an access of `try_push` adds to the ring is what the strategy has yet to
count. -/
theorem pushed_length {s t : State c (Signal F)} {kind : PushKind} {item : Signal F}
    {stalled : Bool} {start : WriterView c (Signal F)} {pc : PushPc}
    {result : PushResult} (hmove : PushMove s kind item stalled start pc result t)
    (sig : Signal F) :
    t.channel.pushed.length =
      s.channel.pushed.length + (StrategyPc.afterPush sig result).uncounted := by
  cases hmove with
  | pushed _ hpushed =>
      rw [hpushed]
      exact List.length_append
  | nearer _ _ hpushed | full _ _ _ _ hpushed | counted _ _ hpushed
  | resumed _ _ _ hpushed
  | cancelled _ _ _ hpushed =>
      rw [hpushed]
      rfl

theorem popped_length {s t : State c (Signal F)} {reader : Reader c} {kind : PopKind}
    {pc : PopPc (Signal F)} {result : PopResult (Signal F)}
    (hmove : PopMove s reader kind pc result t) :
    t.channel.popped.length =
      s.channel.popped.length + (ReceiverPc.afterPop result).inHand := by
  cases hmove with
  | nearer _ _ hchannel | empty _ _ _ _ hchannel =>
      rw [hchannel]
      rfl
  | popped tail sig _ _ hchannel =>
      rw [hchannel]
      exact List.length_append

theorem strategy (h : WorkersInv w) {crossing : Option (Signal F)}
    (hstep : strategyStep w crossing = some w') : WorkersInv w' := by
  have hproduced := h.produced
  rcases strategyStep_cases hstep with ⟨pc, hbefore, hafter, -, rfl⟩ |
      ⟨sig, ring, hpc, hring, rfl⟩ |
      ⟨sig, kind, item, stalled, start, pc, hpc, hp, rfl⟩ | ⟨hpc, rfl⟩
  · refine ⟨h.ring, h.pushing, h.popping, ?_, h.handled⟩
    show _ = w.produced + pc.uncounted
    rw [hafter, hproduced, hbefore]
  · have hinv := h.ring.step hring
    obtain rfl := step_callPush hring
    rw [hpc] at hproduced
    exact ⟨hinv, fun _ _ _ _ _ hp => by cases hp; rfl, h.popping, hproduced, h.handled⟩
  · obtain rfl := h.pushing kind item stalled start pc hp
    obtain ⟨hconsumer, hpopped⟩ := pushStep_frame w.ring .tryPush item stalled start pc
    rw [hpc] at hproduced
    refine ⟨h.ring.pushStep hp, fun _ _ _ _ _ => (pushStep_move ..).kind, ?_, ?_, ?_⟩
    · rw [hconsumer]
      exact h.popping
    · rw [pushed_length (pushStep_move ..) sig, hproduced]
      rfl
    · rw [hpopped]
      exact h.handled
  · rw [hpc] at hproduced
    exact ⟨h.ring, h.pushing, h.popping, hproduced, h.handled⟩

variable [SignedF64 F] {gates : RiskGates F}

/-- The gates handle a signal once, one way or the other. -/
theorem onSignal_count (ex : Executor F) (sig : Signal F) (now : Nat) :
    (ex.onSignal gates sig now).2.totalSignals +
      (ex.onSignal gates sig now).2.signalsRejected =
      ex.totalSignals + ex.signalsRejected + 1 := by
  unfold Executor.onSignal
  cases checkRisk sig ex.position sig.delta gates ex.rate now with
  | mk result rate =>
      cases result with
      | error reason => rfl
      | ok u => exact Nat.add_right_comm _ _ _

theorem receiver (h : WorkersInv w) {now : Nat}
    (hstep : receiverStep gates w now = some w') : WorkersInv w' := by
  have hhandled := h.handled
  rcases receiverStep_cases hstep with ⟨ring, hpc, hring, rfl⟩ |
    ⟨reader, kind, pc, hpc, hq, rfl⟩ |
      ⟨sig, hpc, rfl⟩ | ⟨hpc, rfl⟩
  · have hinv := h.ring.step hring
    obtain ⟨reader, rfl⟩ := step_callPop hring
    rw [hpc] at hhandled
    exact ⟨hinv, h.pushing, fun _ _ _ hq => by cases hq; rfl, h.produced, hhandled⟩
  · obtain rfl := h.popping reader kind pc hq
    obtain ⟨hproducer, hpushed⟩ := popStep_frame w.ring reader .tryPop pc
    rw [hpc] at hhandled
    refine ⟨h.ring.popStep hq, ?_, fun _ _ _ => (popStep_move ..).kind, ?_, ?_⟩
    · rw [hproducer]
      exact h.pushing
    · rw [hpushed]
      exact h.produced
    · rw [popped_length (popStep_move ..), hhandled]
      rfl
  · refine ⟨h.ring, h.pushing, h.popping, h.produced, ?_⟩
    rw [hpc] at hhandled
    rw [hhandled]
    exact (onSignal_count w.executor sig now).symm
  · refine ⟨h.ring, h.pushing, h.popping, h.produced, ?_⟩
    rw [hhandled, hpc]
    show _ = _ + ReceiverPc.inHand (if w.shutdown then .exited else .call)
    split <;> rfl

theorem step (h : WorkersInv w) {act : ThreadAct F}
    (hstep : workersStep gates w act = some w') : WorkersInv w' := by
  cases act with
  | strategy crossing => exact h.strategy hstep
  | executor now => exact h.receiver hstep
  | shutdown =>
      cases hstep
      exact ⟨h.ring, h.pushing, h.popping, h.produced, h.handled⟩

omit [SignedF64 F] in
theorem start (slots : Fin c.size → Signal F) (reader : Reader c) (position : F)
    (now : Nat) : WorkersInv (Workers.start gates slots reader position now) where
  ring := Inv.start slots (some reader)
  pushing := fun _ _ _ _ _ hp => by cases hp
  popping := fun _ _ _ hq => by cases hq
  produced := rfl
  handled := rfl

end WorkersInv

/-! ## Leaving -/

/-- If the step is the one in which the executor leaves, the ring is empty and
the strategy settled. -/
def quietExit (w : Workers c F) : ThreadAct F → Bool
  | .executor _ =>
      match w.receiver with
      | .check =>
          !w.shutdown || (w.ring.channel.head == w.ring.channel.tail &&
            w.strategy.settled)
      | _ => true
  | _ => true

/-- Once the executor has left, nothing is in the ring and nothing will be. -/
def Drained (w : Workers c F) : Prop :=
  w.receiver = .exited → w.shutdown = true ∧
    w.ring.channel.pushed.length = w.ring.channel.popped.length ∧
    w.strategy.settled = true

/-- After the executor has left, the strategy goes to its exit. -/
theorem Drained.strategy {w w' : Workers c F} (h : Drained w)
    {crossing : Option (Signal F)} (hstep : strategyStep w crossing = some w') :
    Drained w' := by
  rcases strategyStep_cases hstep with ⟨pc, -, -, hmove, rfl⟩ |
    ⟨sig, ring, hpc, -, rfl⟩ | ⟨sig, kind, item, stalled, start, pc, hpc, -, rfl⟩ |
    ⟨-, rfl⟩
  · intro hexited
    obtain ⟨hflag, hempty, hsettled⟩ := h hexited
    exact ⟨hflag, hempty, hmove hflag hsettled⟩
  · intro hexited
    have hsettled := (h hexited).2.2
    rw [hpc] at hsettled
    cases hsettled
  · intro hexited
    have hsettled := (h hexited).2.2
    rw [hpc] at hsettled
    cases hsettled
  · intro hexited
    obtain ⟨hflag, hempty, -⟩ := h hexited
    exact ⟨hflag, hempty, rfl⟩

section Leaving

variable [SignedF64 F] {gates : RiskGates F} {w w' : Workers c F}

theorem Drained.receiver (hinv : WorkersInv w) {now : Nat}
    (hquiet : quietExit w (.executor now) = true)
    (hstep : receiverStep gates w now = some w') : Drained w' := by
  rcases receiverStep_cases hstep with ⟨ring, -, -, rfl⟩ |
    ⟨reader, kind, pc, -, -, rfl⟩ | ⟨sig, -, rfl⟩ | ⟨hpc, rfl⟩
  · exact fun hexited => by cases hexited
  · intro hexited
    simp only at hexited
    cases hresult : popResult w.ring pc <;> rw [hresult] at hexited <;> cases hexited
  · exact fun hexited => by cases hexited
  · intro hexited
    cases hflag : w.shutdown with
    | false =>
        simp only [hflag, Bool.false_eq_true, if_false] at hexited
        cases hexited
    | true =>
        simp only [quietExit, hpc, hflag, Bool.not_true, Bool.false_or, Bool.and_eq_true,
          beq_iff_eq] at hquiet
        have hflight := hinv.ring.channel.empty_iff.1 hquiet.1
        have hle := hinv.ring.channel.length_le
        rw [Channel.inFlight] at hflight
        exact ⟨rfl, by dsimp only; omega, hquiet.2⟩

theorem Drained.step (hinv : WorkersInv w) (h : Drained w) {act : ThreadAct F}
    (hquiet : quietExit w act = true) (hstep : workersStep gates w act = some w') :
    Drained w' := by
  cases act with
  | strategy crossing => exact h.strategy hstep
  | executor now => exact Drained.receiver hinv hquiet hstep
  | shutdown =>
      cases hstep
      intro hexited
      obtain ⟨_, hempty, hsettled⟩ := h hexited
      exact ⟨rfl, hempty, hsettled⟩

end Leaving

/-- The flag is set while the strategy is about to push: the executor finds the
ring empty and leaves, and then the push succeeds. -/
theorem delivered_signal_lost :
    let c : Capacity := ⟨1, by decide⟩
    let gates : RiskGates ℚ := ⟨100, 10, 1000⟩
    let acts : List (ThreadAct ℚ) :=
      List.replicate 3 (.strategy (some ⟨.buy, 1⟩)) ++ [.shutdown] ++
        List.replicate 4 (.executor 0) ++ List.replicate 8 (.strategy none)
    ∃ w, exec (workersStep gates)
        (Workers.start (c := c) gates (fun _ => ⟨.buy, 0⟩) ⟨1, rfl⟩ 0 0) acts = some w ∧
      w.strategy = .exited ∧ w.receiver = .exited ∧ w.produced = 1 ∧
      w.executor.totalSignals + w.executor.signalsRejected = 0 ∧
      w.ring.channel.pushed = [⟨.buy, 1⟩] ∧ w.ring.channel.popped = [] := by
  intro c gates acts
  obtain ⟨w, hrun, hw⟩ := exists_exec (workersStep gates)
    (Workers.start (c := c) gates (fun _ => ⟨.buy, 0⟩) ⟨1, rfl⟩ 0 0) acts
    (fun w => w.strategy = .exited ∧ w.receiver = .exited ∧ w.produced = 1 ∧
      w.executor.totalSignals + w.executor.signalsRejected = 0 ∧
      w.ring.channel.pushed = [⟨.buy, 1⟩] ∧
      w.ring.channel.popped = []) (by decide +kernel)
  exact ⟨w, hrun, of_decide_eq_true hw⟩

section Runs

variable [SignedF64 F]

/-- When both threads have left, what was produced and not handled is still in
the ring; and in every run in which the executor only leaves quietly, that is
nothing: every delivered signal has been popped, and executed or rejected. -/
theorem shutdown_loses_nothing (gates : RiskGates F) (slots : Fin c.size → Signal F)
    (reader : Reader c) (position : F) (now : Nat) (acts : List (ThreadAct F))
    (w : Workers c F)
    (hrun : exec (workersStep gates) (Workers.start gates slots reader position now)
      acts = some w)
    (hstrategy : w.strategy = .exited) (hreceiver : w.receiver = .exited) :
    w.produced = w.executor.totalSignals + w.executor.signalsRejected +
        w.ring.channel.queue.length ∧
    (meets (workersStep gates) quietExit
        (Workers.start gates slots reader position now) acts = true →
      w.ring.channel.popped = w.ring.channel.pushed ∧
        w.produced = w.executor.totalSignals + w.executor.signalsRejected) := by
  have hinv : WorkersInv w := exec_invariant (fun _ _ _ h hstep => h.step hstep) hrun
    (.start slots reader position now)
  have hproduced := hinv.produced
  have hhandled := hinv.handled
  rw [hstrategy] at hproduced
  rw [hreceiver] at hhandled
  simp only [StrategyPc.uncounted, ReceiverPc.inHand, Nat.add_zero] at hproduced hhandled
  have hle := hinv.ring.channel.length_le
  refine ⟨?_, ?_⟩
  · rw [Channel.queue, List.length_drop]
    omega
  · intro hmeets
    have hdrained := exec_invariant_of_meets (P := fun w => WorkersInv w ∧ Drained w)
      (fun _ _ _ hquiet h hstep => ⟨h.1.step hstep, h.2.step h.1 hquiet hstep⟩)
      hmeets hrun ⟨.start slots reader position now, fun hexited => by cases hexited⟩
    obtain ⟨_, hempty, _⟩ := hdrained.2 hreceiver
    refine ⟨hinv.ring.channel.fifo.eq_of_length hempty.symm, ?_⟩
    omega

end Runs

/-- A signal is delivered and executed, and then both threads leave. -/
theorem shutdown_loses_nothing_one_signal :
    let c : Capacity := ⟨1, by decide⟩
    let gates : RiskGates ℚ := ⟨100, 10, 1000⟩
    let start : Workers c ℚ := .start gates (fun _ => ⟨.buy, 0⟩) ⟨1, rfl⟩ 0 0
    let acts : List (ThreadAct ℚ) :=
      List.replicate 9 (.strategy (some ⟨.buy, 1⟩)) ++ List.replicate 6 (.executor 0) ++
        [.shutdown] ++ List.replicate 2 (.strategy none) ++ List.replicate 4
        (.executor 0)
    ∃ w, exec (workersStep gates) start acts = some w ∧
      meets (workersStep gates) quietExit start acts = true ∧
      w.strategy = .exited ∧ w.receiver = .exited ∧ w.produced = 1 ∧
      w.ring.channel.popped = w.ring.channel.pushed := by
  intro c gates start acts
  have hmeets : meets (workersStep gates) quietExit start acts =
    true := by decide +kernel
  obtain ⟨w, hrun, hw⟩ := exists_exec (workersStep gates) start acts
    (fun w => w.strategy = .exited ∧ w.receiver = .exited ∧ w.produced = 1)
    (by decide +kernel)
  obtain ⟨hstrategy, hreceiver, hproduced⟩ := of_decide_eq_true hw
  exact ⟨w, hrun, hmeets, hstrategy, hreceiver, hproduced,
    ((shutdown_loses_nothing gates _ _ _ _ acts w hrun hstrategy hreceiver).2 hmeets).1⟩

end Candlestore.Hub
