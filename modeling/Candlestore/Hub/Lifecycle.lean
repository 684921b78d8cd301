import Candlestore.Hub.Exits

/-!
# The market hub from SIGTERM to its return

The process has five threads: the ingester, the strategy, the executor, the metrics
poller and `main`.  A signal handler sets `shutdown`.  `main` then stops the
ingester, bumps the version of the store to wake the strategy, waits for the other
threads, each for five seconds at most, and drops the ingester, which waits for
its thread.  A thread that is not done in time is detached, and dies with the process
when `main` returns.

Nothing tells the strategy to look at the flag but the version, so the order of the
two stores matters: the flag is set before the bump.  A strategy that has seen the
bump finds the flag, and one that has passed the flag has not seen the bump and is
woken once more.  The executor leaves when it finds the ring of signals empty, which
it does once the strategy is gone.

What the strategy's evaluation finds, how long anything takes and what the producer
of the feed does is left open.
-/

namespace Candlestore.Hub

open Lib Spsc

variable {c cf : Capacity} {F : Type}

/-- The next thing `main` does, from the startup on. -/
inductive MainPc where
  /-- Park while `shutdown` is not set. -/
  | park
  | stopSignal
  | signalWaiters
  | joinStrategy
  | joinExecutor
  | joinPoller
  | dropIngester
  | returned
  deriving DecidableEq, Repr

/-- The next thing the metrics poller does. -/
inductive PollerPc where
  | check
  | park
  | recheck
  | emit
  | exited
  deriving DecidableEq, Repr

/-- The strategy is in `wait_for_change`. -/
def StrategyPc.waits : StrategyPc F → Bool
  | .wait => true
  | _ => false

/-- The strategy thread has returned. -/
def StrategyPc.hasExited : StrategyPc F → Bool
  | .exited => true
  | _ => false

/-- The executor thread has returned. -/
def ReceiverPc.hasExited : ReceiverPc F → Bool
  | .exited => true
  | _ => false

/-- The threads of the hub. -/
inductive Thread where
  | ingester
  | strategy
  | executor
  | poller
  | main
  deriving DecidableEq, Repr

/-- The process.  `raised` are the bumps of the store's version by `signal_waiters`,
`lastSeen` is the strategy's, and `detached` are the threads that `main` has warned
about. -/
structure Process (cf c : Capacity) (F : Type) where
  feed : Pipeline cf F
  workers : Workers c F
  raised : Nat
  lastSeen : Nat
  poller : PollerPc
  main : MainPc
  detached : List Thread

/-- The version the strategy waits on: the appends, and the bumps
of `main` at shutdown. -/
def Process.version (s : Process cf c F) : Nat := s.feed.store.version + s.raised

/-- The steps of the threads and of their surroundings. -/
inductive ProcessAct (F : Type) where
  /-- A step on the producer's side of the feed. -/
  | feed (a : Action (Candle F))
  | ingester (io : SpillIo)
  | strategy (crossing : Option (Signal F))
  | executor (now : Nat)
  | poller
  /-- `expired` says that the five seconds of a join are over. -/
  | main (expired : Bool)
  /-- A signal handler sets `shutdown`. -/
  | sigterm

/-- Whose step it is; the feed and the signals are not the process's. -/
def ProcessAct.owner : ProcessAct F → Option Thread
  | .feed _ => none
  | .ingester _ => some .ingester
  | .strategy _ => some .strategy
  | .executor _ => some .executor
  | .poller => some .poller
  | .main _ => some .main
  | .sigterm => none

/-- The loop of `metrics_poller`. -/
def pollerStep (shutdown : Bool) : PollerPc → Option PollerPc
  | .check => some (if shutdown then .exited else .park)
  | .park => some .recheck
  | .recheck => some (if shutdown then .exited else .emit)
  | .emit => some .check
  | .exited => none

/-- `is_finished`. -/
def Process.finished (s : Process cf c F) : Thread → Bool
  | .ingester => s.feed.pc.isStopped
  | .strategy => s.workers.strategy.hasExited
  | .executor => s.workers.receiver.hasExited
  | .poller => s.poller = .exited
  | .main => s.main = .returned

/-- One round of `join_with_label`: go on, give up, or wait another ten
milliseconds. -/
def Process.join (s : Process cf c F) (thread : Thread) (expired : Bool)
    (next : MainPc) : Process cf c F :=
  if s.finished thread then { s with main := next }
  else if expired then { s with main := next, detached := thread :: s.detached }
  else s

/-- `main` from its park loop to its return.  The last handle on the ingester is
dropped here if the poller, which has the other one, is gone; the drop joins. -/
def mainStep (s : Process cf c F) (expired : Bool) : Option (Process cf c F) :=
  match s.main with
  | .park => some { s with main := if s.workers.shutdown then .stopSignal else .park }
  | .stopSignal =>
      some { s with feed := { s.feed with running := false }, main := .signalWaiters }
  | .signalWaiters => some { s with raised := s.raised + 1, main := .joinStrategy }
  | .joinStrategy => some (s.join .strategy expired .joinExecutor)
  | .joinExecutor => some (s.join .executor expired .joinPoller)
  | .joinPoller => some (s.join .poller expired .dropIngester)
  | .dropIngester =>
      if s.finished .poller && !s.finished .ingester then none
      else some { s with main := .returned }
  | .returned => none

section Steps

variable [SignedF64 F] (cfg : Config) (symbol : Symbol) (gates : RiskGates F)

/-- A step of a process that runs. -/
def runStep (s : Process cf c F) : ProcessAct F → Option (Process cf c F)
  | .feed a =>
      (pipelineStep cfg symbol s.feed (.producer a)).map fun feed =>
        { s with feed := feed }
  | .ingester io =>
      (ingestStep cfg symbol s.feed io).map fun feed => { s with feed := feed }
  | .strategy crossing =>
      if s.workers.strategy.waits then
        -- one load of `wait_for_change`
        if s.version = s.lastSeen then some s
        else some { s with
          lastSeen := s.version
          workers := { s.workers with strategy := .check } }
      else (strategyStep s.workers crossing).map fun w => { s with workers := w }
  | .executor now =>
      (receiverStep gates s.workers now).map fun w => { s with workers := w }
  | .poller =>
      (pollerStep s.workers.shutdown s.poller).map fun pc => { s with poller := pc }
  | .main expired => mainStep s expired
  | .sigterm => some { s with workers := { s.workers with shutdown := true } }

/-- When `main` returns the process is gone, and all its threads with it. -/
def processStep (s : Process cf c F) (act : ProcessAct F) : Option (Process cf c F) :=
  if s.finished .main then none else runStep cfg symbol gates s act

/-- Everything is started and nothing has happened yet. -/
def Process.start (slots : Fin cf.size → Candle F) (reader : Reader cf)
    (sigSlots : Fin c.size → Signal F) (sigReader : Reader c) (position : F)
    (now : Nat) : Process cf c F where
  feed := .start slots reader
  workers := .start gates sigSlots sigReader position now
  raised := 0
  lastSeen := 0
  poller := .check
  main := .park
  detached := []

end Steps

/-! ## What a step can do -/

/-- `main` has bumped the version. -/
def MainPc.bumped : MainPc → Bool
  | .park => false
  | .stopSignal => false
  | .signalWaiters => false
  | _ => true

/-- What is left for `main` to do. -/
def MainPc.left : MainPc → Nat
  | .park => 7
  | .stopSignal => 6
  | .signalWaiters => 5
  | .joinStrategy => 4
  | .joinExecutor => 3
  | .joinPoller => 2
  | .dropIngester => 1
  | .returned => 0

/-- What is left for `main` to do when it waits for the thread. -/
def Thread.turn : Thread → Nat
  | .strategy => 4
  | .executor => 3
  | .poller => 2
  | _ => 0

theorem finished_ingester {s : Process cf c F} :
    s.finished .ingester = true ↔ s.feed.pc = .stopped := by
  simp only [Process.finished]
  cases s.feed.pc <;> simp [IngestPc.isStopped]

theorem finished_strategy {s : Process cf c F} :
    s.finished .strategy = true ↔ s.workers.strategy = .exited := by
  simp only [Process.finished]
  cases s.workers.strategy <;> simp [StrategyPc.hasExited]

theorem finished_executor {s : Process cf c F} :
    s.finished .executor = true ↔ s.workers.receiver = .exited := by
  simp only [Process.finished]
  cases s.workers.receiver <;> simp [ReceiverPc.hasExited]

theorem finished_poller {s : Process cf c F} :
    s.finished .poller = true ↔ s.poller = .exited := decide_eq_true_iff

theorem finished_main {s : Process cf c F} :
    s.finished .main = true ↔ s.main = .returned := decide_eq_true_iff

/-- Everything a step of the process can do. -/
inductive ProcessMove [SignedF64 F] (cfg : Config) (symbol : Symbol)
    (gates : RiskGates F) (s : Process cf c F) :
    ProcessAct F → Process cf c F → Prop where
  | feed (a : Action (Candle F)) (ring : State cf (Candle F)) : a.byProducer = true →
      step s.feed.ring a = some ring →
      ProcessMove cfg symbol gates s (.feed a)
        { s with feed := { s.feed with ring := ring } }
  | ingester (io : SpillIo) (feed : Pipeline cf F) :
      ingestStep cfg symbol s.feed io = some feed →
      ProcessMove cfg symbol gates s (.ingester io) { s with feed := feed }
  | spin (crossing : Option (Signal F)) :
      s.workers.strategy = .wait → s.version = s.lastSeen →
      ProcessMove cfg symbol gates s (.strategy crossing) s
  | wake (crossing : Option (Signal F)) : s.workers.strategy = .wait →
      ProcessMove cfg symbol gates s (.strategy crossing) { s with
        lastSeen := s.version
        workers := { s.workers with strategy := .check } }
  | strategy (crossing : Option (Signal F)) (w : Workers c F) :
      s.workers.strategy ≠ .wait →
      strategyStep s.workers crossing = some w →
      ProcessMove cfg symbol gates s (.strategy crossing) { s with workers := w }
  | executor (now : Nat) (w : Workers c F) : receiverStep gates s.workers now = some w →
      ProcessMove cfg symbol gates s (.executor now) { s with workers := w }
  | poller (pc : PollerPc) : pollerStep s.workers.shutdown s.poller = some pc →
      ProcessMove cfg symbol gates s .poller { s with poller := pc }
  | park (expired : Bool) : s.main = .park → s.workers.shutdown = false →
      ProcessMove cfg symbol gates s (.main expired) s
  | leave (expired : Bool) : s.main = .park → s.workers.shutdown = true →
      ProcessMove cfg symbol gates s (.main expired) { s with main := .stopSignal }
  | stopSignal (expired : Bool) : s.main = .stopSignal →
      ProcessMove cfg symbol gates s (.main expired)
        { s with feed := { s.feed with running := false }, main := .signalWaiters }
  | signalWaiters (expired : Bool) : s.main = .signalWaiters →
      ProcessMove cfg symbol gates s (.main expired)
        { s with raised := s.raised + 1, main := .joinStrategy }
  | wait (expired : Bool) (thread : Thread) : s.main.bumped = true → 0 < thread.turn →
      s.finished thread = false → ProcessMove cfg symbol gates s (.main expired) s
  | join (expired : Bool) (thread : Thread) (pc : MainPc) : s.main.bumped = true →
      pc.bumped = true → s.main.left = thread.turn → s.main.left = pc.left + 1 →
      0 < pc.left →
      s.finished thread = true →
      ProcessMove cfg symbol gates s (.main expired) { s with main := pc }
  | detach (expired : Bool) (thread : Thread) (pc : MainPc) : s.main.bumped = true →
      pc.bumped = true → s.main.left = thread.turn → s.main.left = pc.left + 1 →
      0 < pc.left →
      s.finished thread = false →
      ProcessMove cfg symbol gates s (.main expired)
        { s with main := pc, detached := thread :: s.detached }
  | drop (expired : Bool) : s.main = .dropIngester →
      (s.finished .poller = true → s.finished .ingester = true) →
      ProcessMove cfg symbol gates s (.main expired) { s with main := .returned }
  | sigterm : ProcessMove cfg symbol gates s .sigterm
      { s with workers := { s.workers with shutdown := true } }

theorem StrategyPc.eq_wait {pc : StrategyPc F} (h : pc.waits = true) : pc = .wait := by
  cases pc with
  | wait => rfl
  | _ => cases h

/-- The strategy is between its test of the flag and its next wake-up. -/
def StrategyPc.inLoop : StrategyPc F → Bool
  | .check => false
  | .exited => false
  | _ => true

/-- Once the flag is set the strategy does not pass it. -/
theorem strategyStep_inLoop {w w' : Workers c F} {crossing : Option (Signal F)}
    (hflag : w.shutdown = true) (hstep : strategyStep w crossing = some w')
    (hloop : w'.strategy.inLoop = true) : w.strategy.inLoop = true := by
  unfold strategyStep at hstep
  cases hpc : w.strategy with
  | check =>
      simp only [hpc, hflag, if_true, Option.some.injEq] at hstep
      subst hstep
      cases hloop
  | exited =>
      simp only [hpc] at hstep
      cases hstep
  | _ => rfl

section Moves

variable [SignedF64 F] {cfg : Config} {symbol : Symbol} {gates : RiskGates F}
  {s s' : Process cf c F}

theorem join_move {expired : Bool} {thread : Thread} {here pc : MainPc}
    (hmain : s.main = here) (hb : here.bumped = true) (hb' : pc.bumped = true)
    (hturn : here.left = thread.turn) (hleft : here.left = pc.left + 1)
    (hpos : 0 < pc.left) :
    ProcessMove cfg symbol gates s (.main expired) (s.join thread expired pc) := by
  subst hmain
  unfold Process.join
  cases hfin : s.finished thread with
  | true => exact .join expired thread pc hb hb' hturn hleft hpos hfin
  | false =>
      cases hexp : expired with
      | true => exact .detach true thread pc hb hb' hturn hleft hpos hfin
      | false => exact .wait false thread hb (by omega) hfin

theorem mainStep_move {expired : Bool} (hstep : mainStep s expired = some s') :
    ProcessMove cfg symbol gates s (.main expired) s' := by
  unfold mainStep at hstep
  cases hmain : s.main with
  | park =>
      simp only [hmain, Option.some.injEq] at hstep
      cases hflag : s.workers.shutdown with
      | false =>
          have hs' : s' = s := by
            rw [← hstep, hflag]
            simp [← hmain]
          rw [hs']
          exact .park expired hmain hflag
      | true =>
          rw [← hstep, hflag]
          exact .leave expired hmain hflag
  | stopSignal =>
      simp only [hmain, Option.some.injEq] at hstep
      subst hstep
      exact .stopSignal expired hmain
  | signalWaiters =>
      simp only [hmain, Option.some.injEq] at hstep
      subst hstep
      exact .signalWaiters expired hmain
  | joinStrategy | joinExecutor | joinPoller =>
      simp only [hmain, Option.some.injEq] at hstep
      subst hstep
      exact join_move hmain rfl rfl rfl rfl (Nat.succ_pos _)
  | dropIngester =>
      simp only [hmain] at hstep
      split at hstep
      · cases hstep
      · next hdone =>
        cases hstep
        refine .drop expired hmain ?_
        intro hpoller
        rw [hpoller] at hdone
        simpa using hdone
  | returned =>
      simp only [hmain] at hstep
      cases hstep

theorem runStep_move {act : ProcessAct F}
    (hstep : runStep cfg symbol gates s act = some s') :
    ProcessMove cfg symbol gates s act s' := by
  cases act with
  | feed a =>
      obtain ⟨feed, hfeed, rfl⟩ := Option.map_eq_some_iff.1 hstep
      simp only [pipelineStep, Option.ite_none_right_eq_some] at hfeed
      obtain ⟨ha, hmap⟩ := hfeed
      obtain ⟨ring, hring, rfl⟩ := Option.map_eq_some_iff.1 hmap
      exact .feed a ring ha hring
  | ingester io =>
      obtain ⟨feed, hfeed, rfl⟩ := Option.map_eq_some_iff.1 hstep
      exact .ingester io feed hfeed
  | strategy crossing =>
      simp only [runStep] at hstep
      split at hstep
      · next hwait =>
        have hwait := StrategyPc.eq_wait hwait
        split at hstep
        · next hsame =>
          cases hstep
          exact .spin crossing hwait hsame
        · cases hstep
          exact .wake crossing hwait
      · next hwait =>
        obtain ⟨w, hw, rfl⟩ := Option.map_eq_some_iff.1 hstep
        refine .strategy crossing w ?_ hw
        intro heq
        rw [heq] at hwait
        exact hwait rfl
  | executor now =>
      obtain ⟨w, hw, rfl⟩ := Option.map_eq_some_iff.1 hstep
      exact .executor now w hw
  | poller =>
      obtain ⟨pc, hpc, rfl⟩ := Option.map_eq_some_iff.1 hstep
      exact .poller pc hpc
  | main expired => exact mainStep_move hstep
  | sigterm =>
      cases hstep
      exact .sigterm

/-- Inversion of a step. -/
theorem processStep_move {act : ProcessAct F}
    (hstep : processStep cfg symbol gates s act = some s') :
    s.finished .main = false ∧ ProcessMove cfg symbol gates s act s' := by
  rw [processStep, Option.ite_none_left_eq_some] at hstep
  exact ⟨Bool.eq_false_iff.2 hstep.1, runStep_move hstep.2⟩

/-- A thread that can move in a process that runs. -/
theorem enabled_processStep {act : ProcessAct F} (hmain : s.finished .main = false)
    (hrun : (runStep cfg symbol gates s act).isSome) :
    (processStep cfg symbol gates s act).isSome := by
  rw [processStep, hmain]
  exact hrun

/-! ## The invariant -/

/-- How far the shutdown has got, on top of what the parts keep to themselves. -/
structure ProcessInv (cfg : Config) (symbol : Symbol) (s : Process cf c F) : Prop where
  feed : IngestInv cfg symbol s.feed
  workers : WorkersInv s.workers
  pushing : PushSync s.workers
  popping : PopSync s.workers
  ingesting : IngestSync s.feed
  seen : s.lastSeen ≤ s.version
  /-- The flag comes first, -/
  flagged : s.main ≠ .park → s.workers.shutdown = true
  /-- then the ingester is stopped, -/
  stopped : s.main.left ≤ 5 → s.feed.running = false
  /-- then the version is bumped, which no strategy that passed the flag has seen. -/
  woken : s.main.bumped = true → s.workers.strategy.inLoop = true →
    s.lastSeen < s.version
  /-- Then `main` waits for one thread after the other, -/
  joined : ∀ t, s.main.left < t.turn → s.finished t = true ∨ t ∈ s.detached
  /-- and for the ingester if it has the last handle. -/
  dropped : s.main.left = 0 → s.finished .ingester = true ∨ .poller ∈ s.detached

theorem ProcessInv.start (slots : Fin cf.size → Candle F) (reader : Reader cf)
    (sigSlots : Fin c.size → Signal F) (sigReader : Reader c) (position : F)
    (now : Nat) :
    ProcessInv cfg symbol
      (Process.start gates slots reader sigSlots sigReader position now) where
  feed := .start slots reader
  workers := .start sigSlots sigReader position now
  pushing := rfl
  popping := ⟨sigReader, rfl⟩
  ingesting := ⟨reader, rfl⟩
  seen := Nat.le_refl 0
  flagged := fun h => absurd rfl h
  stopped := fun h => absurd h (by show ¬(7 ≤ 5); omega)
  woken := fun h => by cases h
  joined := fun t h =>
    absurd h (by cases t <;> simp [Thread.turn, Process.start, MainPc.left])
  dropped := fun h => by cases h

theorem MainPc.left_le_of_bumped {pc : MainPc} (h : pc.bumped = true) : pc.left ≤ 5 := by
  cases pc with
  | park | stopSignal | signalWaiters => cases h
  | _ => exact Nat.le_of_ble_eq_true rfl

theorem MainPc.ne_park_of_bumped {pc : MainPc} (h : pc.bumped = true) : pc ≠ .park := by
  rintro rfl
  cases h

/-- The flag stays set, the version stays bumped, and threads that have left stay
away. -/
theorem ProcessInv.stable (h : ProcessInv cfg symbol s) {act : ProcessAct F}
    (hstep : processStep cfg symbol gates s act = some s') :
    (s.workers.shutdown = true → s'.workers.shutdown = true) ∧
    (s.main.bumped = true → s'.main.bumped = true) ∧
    ∀ t, s.finished t = true → s'.finished t = true := by
  obtain ⟨hrunning, hmove⟩ := processStep_move hstep
  have hmain : ∀ t, s.finished t = true → t ≠ .main := by
    rintro t ht rfl
    rw [hrunning] at ht
    cases ht
  cases hmove with
  | ingester io feed hfeed =>
      refine ⟨id, id, ?_⟩
      intro t ht
      cases t with
      | ingester =>
          rw [ingestStep.eq_def] at hfeed
          simp only [finished_ingester.1 ht] at hfeed
          cases hfeed
      | _ => exact ht
  | wake crossing hwait =>
      refine ⟨id, id, ?_⟩
      intro t ht
      cases t with
      | strategy =>
          rw [finished_strategy, hwait] at ht
          cases ht
      | _ => exact ht
  | strategy crossing w hwait hw =>
      obtain ⟨-, -, hreceiver, hflag, -⟩ := strategyStep_progress h.pushing hw
      refine ⟨hflag.trans, id, ?_⟩
      intro t ht
      cases t with
      | strategy =>
          rw [strategyStep.eq_def] at hw
          simp only [finished_strategy.1 ht] at hw
          cases hw
      | executor => exact finished_executor.2 (hreceiver.trans (finished_executor.1 ht))
      | _ => exact ht
  | executor now w hw =>
      obtain ⟨-, -, hstrategy, hflag, -⟩ :=
        receiverStep_progress h.workers.ring h.popping hw
      refine ⟨hflag.trans, id, ?_⟩
      intro t ht
      cases t with
      | executor =>
          rw [receiverStep.eq_def] at hw
          simp only [finished_executor.1 ht] at hw
          cases hw
      | strategy => exact finished_strategy.2 (hstrategy.trans (finished_strategy.1 ht))
      | _ => exact ht
  | poller pc hpc =>
      refine ⟨id, id, ?_⟩
      intro t ht
      cases t with
      | poller =>
          rw [finished_poller.1 ht] at hpc
          cases hpc
      | _ => exact ht
  | leave expired hpark | stopSignal expired hpark | signalWaiters expired hpark =>
      refine ⟨id, ?_, ?_⟩
      · intro hb
        rw [hpark] at hb
        cases hb
      · intro t ht
        cases t with
        | main => exact absurd rfl (hmain _ ht)
        | _ => exact ht
  | join expired thread pc hb hb' | detach expired thread pc hb hb' =>
      refine ⟨id, fun _ => hb', ?_⟩
      intro t ht
      cases t with
      | main => exact absurd rfl (hmain _ ht)
      | _ => exact ht
  | drop expired =>
      refine ⟨id, fun _ => rfl, ?_⟩
      intro t ht
      cases t with
      | main => rfl
      | _ => exact ht
  | sigterm =>
      refine ⟨fun _ => rfl, id, ?_⟩
      intro t ht
      cases t with
      | _ => exact ht
  | _ => exact ⟨id, id, fun _ => id⟩

theorem Thread.turn_le (t : Thread) : t.turn ≤ 4 := by
  cases t <;> decide

theorem Thread.one_lt_turn (t : Thread) (h : 0 < t.turn) : 1 < t.turn := by
  cases t <;> first | decide | cases h

/-- Past a join, the thread joined and those before it are done with. -/
theorem Thread.eq_or_lt_turn {t thread : Thread} {left next : Nat}
    (hturn : left = thread.turn) (hleft : left = next + 1) (ht : next < t.turn) :
    t = thread ∨ left < t.turn := by
  subst hleft
  cases thread <;> cases t <;> simp [Thread.turn] at hturn ht ⊢ <;> omega

theorem ProcessInv.step (hcap : 0 < cfg.ringCapacity) (h : ProcessInv cfg symbol s)
    {act : ProcessAct F} (hstep : processStep cfg symbol gates s act = some s') :
    ProcessInv cfg symbol s' := by
  obtain ⟨-, -, hkeep⟩ := h.stable hstep
  -- a step that is not `main`'s
  have hjoined : s'.main = s.main → s'.detached = s.detached →
      ∀ t, s'.main.left < t.turn → s'.finished t = true ∨ t ∈ s'.detached := by
    intro hmain hdetached t ht
    rw [hmain] at ht
    rw [hdetached]
    exact (h.joined t ht).imp_left (hkeep t)
  have hdropped : s'.main = s.main → s'.detached = s.detached →
      s'.main.left = 0 → s'.finished .ingester = true ∨ .poller ∈ s'.detached := by
    intro hmain hdetached ht
    rw [hmain] at ht
    rw [hdetached]
    exact (h.dropped ht).imp_left (hkeep _)
  cases (processStep_move hstep).2 with
  | feed a ring ha hring =>
      obtain ⟨hconsumer, -⟩ := step_byProducer ha hring
      have hfeed : pipelineStep cfg symbol s.feed (.producer a) =
          some { s.feed with ring := ring } := by
        simp only [pipelineStep, ha, if_true, hring, Option.map_some]
      have hsync := h.ingesting
      refine { h with
        feed := h.feed.step hfeed
        ingesting := ?_
        joined := hjoined rfl rfl
        dropped := hdropped rfl rfl }
      unfold IngestSync at hsync ⊢
      dsimp only
      rw [hconsumer]
      exact hsync
  | ingester io feed hfeed =>
      obtain ⟨hsync, hrunning, hversion, -⟩ :=
        ingestStep_progress h.feed hcap h.ingesting hfeed
      have hseen := h.seen
      have hwoken := h.woken
      simp only [Process.version] at hseen hwoken
      exact { h with
        feed := h.feed.ingest hfeed
        ingesting := hsync
        seen := by
          simp only [Process.version]
          omega
        stopped := fun hleft => hrunning.trans (h.stopped hleft)
        woken := fun hb hl => by
          have := hwoken hb hl
          simp only [Process.version]
          omega
        joined := hjoined rfl rfl
        dropped := hdropped rfl rfl }
  | spin crossing hwait hsame => exact h
  | wake crossing hwait =>
      have hsync := h.pushing
      have hproduced := h.workers.produced
      rw [hwait] at hproduced
      simp only [PushSync, hwait] at hsync
      exact { h with
        workers := { h.workers with produced := hproduced }
        pushing := hsync
        seen := Nat.le_refl _
        woken := fun _ hl => by cases hl
        joined := hjoined rfl rfl
        dropped := hdropped rfl rfl }
  | strategy crossing w hwait hw =>
      obtain ⟨hsync, hconsumer, hreceiver, hflag, -⟩ :=
        strategyStep_progress h.pushing hw
      have hpop := h.popping
      refine { h with
        workers := h.workers.strategy hw
        pushing := hsync
        popping := ?_
        flagged := fun hmain => hflag.trans (h.flagged hmain)
        woken := ?_
        joined := hjoined rfl rfl
        dropped := hdropped rfl rfl }
      · simp only [PopSync] at hpop ⊢
        rw [hreceiver, hconsumer]
        exact hpop
      · intro hb hl
        have hset := h.flagged (MainPc.ne_park_of_bumped hb)
        exact h.woken hb (strategyStep_inLoop hset hw hl)
  | executor now w hw =>
      obtain ⟨hsync, hproducer, hstrategy, hflag, -⟩ :=
        receiverStep_progress h.workers.ring h.popping hw
      have hpush := h.pushing
      refine { h with
        workers := h.workers.receiver hw
        pushing := ?_
        popping := hsync
        flagged := fun hmain => hflag.trans (h.flagged hmain)
        woken := fun hb hl => h.woken hb (hstrategy ▸ hl)
        joined := hjoined rfl rfl
        dropped := hdropped rfl rfl }
      simp only [PushSync] at hpush ⊢
      rw [hstrategy, hproducer]
      exact hpush
  | poller pc hpc =>
      exact { h with
        joined := hjoined rfl rfl
        dropped := hdropped rfl rfl }
  | park expired hmain hflag => exact h
  | leave expired hmain hflag =>
      exact { h with
        flagged := fun _ => hflag
        stopped := fun hleft => absurd hleft (by show ¬(6 ≤ 5); omega)
        woken := fun hb => by cases hb
        joined := fun t ht => absurd (t.turn_le.trans_lt' ht) (by show ¬(6 < 4); omega)
        dropped := fun hleft => by cases hleft }
  | stopSignal expired hmain =>
      have hstop : pipelineStep cfg symbol s.feed .stop =
        some { s.feed with running := false } := rfl
      exact { h with
        feed := h.feed.step hstop
        flagged := fun _ => h.flagged (by rw [hmain]; exact fun heq => by cases heq)
        stopped := fun _ => rfl
        woken := fun hb => by cases hb
        joined := fun t ht => absurd (t.turn_le.trans_lt' ht) (by show ¬(5 < 4); omega)
        dropped := fun hleft => by cases hleft }
  | signalWaiters expired hmain =>
      have hseen := h.seen
      exact { h with
        seen := Nat.le_succ_of_le hseen
        flagged := fun _ => h.flagged (by rw [hmain]; exact fun heq => by cases heq)
        stopped := fun _ => h.stopped (by rw [hmain]; exact Nat.le_refl _)
        woken := fun _ _ => Nat.lt_succ_of_le hseen
        joined := fun t ht => absurd (t.turn_le.trans_lt' ht) (Nat.lt_irrefl 4)
        dropped := fun hleft => by cases hleft }
  | wait expired thread => exact h
  | join expired thread pc hb hb' hturn hleft hpos hfin =>
      refine { h with
        flagged := fun _ => h.flagged (MainPc.ne_park_of_bumped hb)
        stopped := fun _ => h.stopped (MainPc.left_le_of_bumped hb)
        woken := fun _ => h.woken hb
        joined := ?_
        dropped := fun hzero => absurd hzero hpos.ne' }
      intro t ht
      rcases Thread.eq_or_lt_turn hturn hleft ht with rfl | hlt
      · exact .inl (hkeep _ hfin)
      · exact (h.joined t hlt).imp_left (hkeep t)
  | detach expired thread pc hb hb' hturn hleft hpos hfin =>
      refine { h with
        flagged := fun _ => h.flagged (MainPc.ne_park_of_bumped hb)
        stopped := fun _ => h.stopped (MainPc.left_le_of_bumped hb)
        woken := fun _ => h.woken hb
        joined := ?_
        dropped := fun hzero => absurd hzero hpos.ne' }
      intro t ht
      rcases Thread.eq_or_lt_turn hturn hleft ht with rfl | hlt
      · exact .inr List.mem_cons_self
      · exact (h.joined t hlt).imp (hkeep t) (List.mem_cons_of_mem _)
  | drop expired hmain hlast =>
      have hb : s.main.bumped = true := by rw [hmain]; rfl
      have hone : s.main.left = 1 := by rw [hmain]; rfl
      refine { h with
        flagged := fun _ => h.flagged (MainPc.ne_park_of_bumped hb)
        stopped := fun _ => h.stopped (MainPc.left_le_of_bumped hb)
        woken := fun _ => h.woken hb
        joined := ?_
        dropped := ?_ }
      · intro t ht
        exact (h.joined t (hone ▸ t.one_lt_turn ht)).imp_left (hkeep t)
      · intro _
        exact (h.joined .poller (hone ▸ Nat.lt_succ_self 1)).imp_left
          fun hpoller => hkeep _ (hlast hpoller)
  | sigterm =>
      exact { h with
        workers := { h.workers with }
        flagged := fun _ => rfl
        joined := hjoined rfl rfl
        dropped := hdropped rfl rfl }

end Moves

/-! ## One thread after the other leaves -/

/-- How many steps the poller takes to its exit once the flag is set. -/
def PollerPc.rank : PollerPc → Nat
  | .exited => 0
  | .check => 1
  | .recheck => 1
  | .park => 2
  | .emit => 2

section Stages

variable [SignedF64 F] {cfg : Config} {symbol : Symbol} {gates : RiskGates F}

theorem rank_poller {s s' : Process cf c F} {act : ProcessAct F}
    (hset : s.workers.shutdown = true) (hmove : ProcessMove cfg symbol gates s act s') :
    s'.poller.rank ≤ s.poller.rank ∧
      (act.owner = some .poller → s'.poller.rank < s.poller.rank) := by
  cases hmove with
  | poller pc hpc =>
      have hlt : pc.rank < s.poller.rank := by
        rw [hset] at hpc
        cases hp : s.poller <;> rw [hp] at hpc <;> cases hpc <;> exact Nat.lt_succ_self _
      exact ⟨hlt.le, fun _ => hlt⟩
  | _ => exact ⟨Nat.le_refl _, fun h => by cases h⟩

theorem rank_strategy {s s' : Process cf c F} {act : ProcessAct F}
    (h : ProcessInv cfg symbol s) (hb : s.main.bumped = true)
    (hmove : ProcessMove cfg symbol gates s act s') :
    strategyRank s'.workers ≤ strategyRank s.workers ∧
      (act.owner = some .strategy → strategyRank s'.workers <
        strategyRank s.workers) := by
  have hset := h.flagged (MainPc.ne_park_of_bumped hb)
  cases hmove with
  | spin crossing hwait hsame =>
      -- the bump has not been seen
      have hlt := h.woken hb (by rw [hwait]; rfl)
      omega
  | wake crossing hwait =>
      have hlt : strategyRank { s.workers with strategy := .check } <
          strategyRank s.workers := by
        simp [strategyRank, hwait]
      exact ⟨hlt.le, fun _ => hlt⟩
  | strategy crossing w hwait hw =>
      obtain ⟨-, -, -, -, hrank⟩ := strategyStep_progress h.pushing hw
      exact ⟨(hrank hset).le, fun _ => hrank hset⟩
  | executor now w hw =>
      obtain ⟨-, hproducer, hstrategy, -, -⟩ :=
        receiverStep_progress h.workers.ring h.popping hw
      refine ⟨?_, fun h => by cases h⟩
      simp only [strategyRank, hstrategy, hproducer]
      exact Nat.le_refl _
  | _ => exact ⟨Nat.le_refl _, fun h => by cases h⟩

theorem rank_executor {s s' : Process cf c F} {act : ProcessAct F}
    (h : ProcessInv cfg symbol s) (hset : s.workers.shutdown = true)
    (hgone : s.finished .strategy = true)
    (hmove : ProcessMove cfg symbol gates s act s') :
    receiverRank s'.workers ≤ receiverRank s.workers ∧
      (act.owner = some .executor → receiverRank s'.workers <
        receiverRank s.workers) := by
  rw [finished_strategy] at hgone
  cases hmove with
  | wake crossing hwait =>
      rw [hgone] at hwait
      cases hwait
  | strategy crossing w hwait hw =>
      rw [strategyStep.eq_def] at hw
      simp only [hgone] at hw
      cases hw
  | executor now w hw =>
      obtain ⟨-, -, -, -, hrank⟩ := receiverStep_progress h.workers.ring h.popping hw
      exact ⟨(hrank hset).le, fun _ => hrank hset⟩
  | _ => exact ⟨Nat.le_refl _, fun h => by cases h⟩

theorem rank_ingester (hcap : 0 < cfg.ringCapacity) {s s' : Process cf c F}
    {act : ProcessAct F} (h : ProcessInv cfg symbol s) (hb : s.main.bumped = true)
    (hmove : ProcessMove cfg symbol gates s act s') :
    ingestRank s'.feed ≤ ingestRank s.feed ∧
      (act.owner = some .ingester → ingestRank s'.feed < ingestRank s.feed) := by
  have hstop := h.stopped (MainPc.left_le_of_bumped hb)
  cases hmove with
  | feed a ring ha hring =>
      obtain ⟨hconsumer, -⟩ := step_byProducer ha hring
      refine ⟨?_, fun h => by cases h⟩
      simp only [ingestRank, hconsumer]
      exact Nat.le_refl _
  | ingester io feed hfeed =>
      obtain ⟨-, -, -, hrank⟩ := ingestStep_progress h.feed hcap h.ingesting hfeed
      exact ⟨(hrank hstop).le, fun _ => hrank hstop⟩
  | _ => exact ⟨Nat.le_refl _, fun h => by cases h⟩

/-- `main` gets on until it waits, and then if it has nobody to wait for. -/
theorem rank_main {s s' : Process cf c F} {act : ProcessAct F}
    (hset : s.workers.shutdown = true)
    (halone : s.main.bumped = true → ∀ t, 0 < t.turn → s.finished t = true)
    (hmove : ProcessMove cfg symbol gates s act s') :
    s'.main.left ≤ s.main.left ∧
      (act.owner = some .main → s'.main.left < s.main.left) := by
  cases hmove with
  | park expired hmain hclear =>
      rw [hset] at hclear
      cases hclear
  | leave expired hmain | stopSignal expired hmain | signalWaiters expired hmain
  | drop expired hmain =>
      dsimp only
      rw [hmain]
      exact ⟨Nat.le_of_ble_eq_true rfl, fun _ => Nat.lt_succ_self _⟩
  | wait expired thread hb hpos hfin =>
      rw [halone hb thread hpos] at hfin
      cases hfin
  | join expired thread pc hb hb' hturn hleft
  | detach expired thread pc hb hb' hturn hleft =>
      dsimp only
      omega
  | _ => exact ⟨Nat.le_refl _, fun h => by cases h⟩

variable (hcap : 0 < cfg.ringCapacity) {n : Nat}
  (r : WeakRun (σ := Process cf c F) (processStep cfg symbol gates) ProcessAct.owner)
include hcap

/-- One thread gets its work done, unless the process ends before. -/
theorem thread_gets_done (t : Thread) (Told Done : Process cf c F → Prop)
    (rank : Process cf c F → Nat)
    (hkeep : ∀ s act s', ProcessInv cfg symbol s → Told s →
      processStep cfg symbol gates s act = some s' → Told s')
    (hrank : ∀ s act s', ProcessInv cfg symbol s → Told s → ¬Done s →
      ProcessMove cfg symbol gates s act s' →
      rank s' ≤ rank s ∧ (act.owner = some t → rank s' < rank s))
    (henabled : ∀ s, ProcessInv cfg symbol s → Told s → ¬Done s →
      s.finished .main = false →
      ∃ act, act.owner = some t ∧ (runStep cfg symbol gates s act).isSome)
    (hinv : ProcessInv cfg symbol (r.state n)) (htold : Told (r.state n)) :
    ∃ k, n ≤ k ∧ (Done (r.state k) ∨ (r.state k).finished .main = true) := by
  by_cases hnow : Done (r.state n) ∨ (r.state n).finished .main = true
  · exact ⟨n, Nat.le_refl n, hnow⟩
  refine r.leadsTo t
    (P := fun s => ProcessInv cfg symbol s ∧ Told s ∧
      ¬(Done s ∨ s.finished .main = true))
    (Q := fun s => Done s ∨ s.finished .main = true) rank ?_ ?_ ⟨hinv, htold, hnow⟩
  · rintro s act s' ⟨h, htold, hnot⟩ hact
    by_cases hdone : Done s' ∨ s'.finished .main = true
    · exact .inl hdone
    · exact .inr ⟨⟨h.step hcap hact, hkeep s act s' h htold hact, hdone⟩,
        hrank s act s' h htold (fun hdone => hnot (.inl hdone))
          (processStep_move hact).2⟩
  · rintro s ⟨h, htold, hnot⟩
    have hmain := Bool.eq_false_iff.2 fun hmain => hnot (.inr hmain)
    obtain ⟨act, hown, hrun⟩ := henabled s h htold (fun hdone => hnot (.inl hdone)) hmain
    exact ⟨act, hown, enabled_processStep hmain hrun⟩

theorem main_bumps (hinv : ProcessInv cfg symbol (r.state n))
    (hset : (r.state n).workers.shutdown = true) :
    ∃ k, n ≤ k ∧
      ((r.state k).main.bumped = true ∨ (r.state k).finished .main = true) := by
  refine thread_gets_done hcap r .main (fun s => s.workers.shutdown = true)
    (fun s => s.main.bumped = true) (fun s => s.main.left) ?_ ?_ ?_ hinv hset
  · exact fun s act s' h hset hact => (h.stable hact).1 hset
  · exact fun s act s' h hset hb hmove => rank_main hset (fun hb' => absurd hb' hb) hmove
  · intro s h hset hb hmain
    refine ⟨.main true, rfl, ?_⟩
    show (mainStep s true).isSome = true
    unfold mainStep
    cases hpc : s.main with
    | park | stopSignal | signalWaiters => rfl
    | _ => exact absurd (by rw [hpc]; rfl) hb

theorem strategy_leaves (hinv : ProcessInv cfg symbol (r.state n))
    (hb : (r.state n).main.bumped = true) :
    ∃ k, n ≤ k ∧
      ((r.state k).finished .strategy = true ∨ (r.state k).finished .main = true) := by
  refine thread_gets_done hcap r .strategy (fun s => s.main.bumped = true)
    (fun s => s.finished .strategy = true) (fun s => strategyRank s.workers) ?_
    ?_ ?_ hinv hb
  · exact fun s act s' h hb hact => (h.stable hact).2.1 hb
  · exact fun s act s' h hb _ hmove => rank_strategy h hb hmove
  · intro s h hb hnot _
    refine ⟨.strategy none, rfl, ?_⟩
    simp only [runStep]
    split
    · split <;> rfl
    · rw [Option.isSome_map]
      exact enabled_strategyStep h.pushing (fun heq => hnot (finished_strategy.2 heq))

theorem executor_leaves (hinv : ProcessInv cfg symbol (r.state n))
    (hset : (r.state n).workers.shutdown = true)
    (hgone : (r.state n).finished .strategy = true) :
    ∃ k, n ≤ k ∧
      ((r.state k).finished .executor = true ∨ (r.state k).finished .main = true) := by
  refine thread_gets_done hcap r .executor
    (fun s => s.workers.shutdown = true ∧ s.finished .strategy = true)
    (fun s => s.finished .executor = true) (fun s => receiverRank s.workers)
    ?_ ?_ ?_ hinv ⟨hset, hgone⟩
  · rintro s act s' h ⟨hset, hgone⟩ hact
    exact ⟨(h.stable hact).1 hset, (h.stable hact).2.2 _ hgone⟩
  · rintro s act s' h ⟨hset, hgone⟩ _ hmove
    exact rank_executor h hset hgone hmove
  · intro s h _ hnot _
    refine ⟨.executor 0, rfl, ?_⟩
    simp only [runStep, Option.isSome_map]
    exact enabled_receiverStep h.popping (fun heq => hnot (finished_executor.2 heq))

theorem poller_leaves (hinv : ProcessInv cfg symbol (r.state n))
    (hset : (r.state n).workers.shutdown = true) :
    ∃ k, n ≤ k ∧
      ((r.state k).finished .poller = true ∨ (r.state k).finished .main = true) := by
  refine thread_gets_done hcap r .poller (fun s => s.workers.shutdown = true)
    (fun s => s.finished .poller = true) (fun s => s.poller.rank) ?_ ?_ ?_ hinv hset
  · exact fun s act s' h hset hact => (h.stable hact).1 hset
  · exact fun s act s' _ hset _ hmove => rank_poller hset hmove
  · intro s h _ hnot _
    refine ⟨.poller, rfl, ?_⟩
    simp only [runStep, Option.isSome_map]
    cases hpc : s.poller with
    | exited => exact absurd (finished_poller.2 hpc) hnot
    | _ => rfl

theorem ingester_leaves (hinv : ProcessInv cfg symbol (r.state n))
    (hb : (r.state n).main.bumped = true) :
    ∃ k, n ≤ k ∧
      ((r.state k).finished .ingester = true ∨ (r.state k).finished .main = true) := by
  refine thread_gets_done hcap r .ingester (fun s => s.main.bumped = true)
    (fun s => s.finished .ingester = true) (fun s => ingestRank s.feed) ?_ ?_ ?_ hinv hb
  · exact fun s act s' h hb hact => (h.stable hact).2.1 hb
  · exact fun s act s' h hb _ hmove => rank_ingester hcap h hb hmove
  · intro s h _ hnot _
    refine ⟨.ingester .ok, rfl, ?_⟩
    simp only [runStep, Option.isSome_map]
    exact enabled_ingestStep h.feed hcap h.ingesting
      (fun heq => hnot (finished_ingester.2 heq))

theorem main_returns (hinv : ProcessInv cfg symbol (r.state n))
    (hset : (r.state n).workers.shutdown = true)
    (halone : ∀ t, t ≠ .main → (r.state n).finished t = true) :
    ∃ k, n ≤ k ∧ (r.state k).finished .main = true := by
  suffices hdone : ∃ k, n ≤ k ∧ ((r.state k).finished .main = true ∨
      (r.state k).finished .main = true) by simpa only [or_self] using hdone
  refine thread_gets_done hcap r .main
    (fun s => s.workers.shutdown = true ∧ ∀ t, t ≠ .main → s.finished t = true)
    (fun s => s.finished .main = true) (fun s => s.main.left) ?_ ?_ ?_ hinv
    ⟨hset, halone⟩
  · rintro s act s' h ⟨hset, halone⟩ hact
    obtain ⟨hflag, -, hkeep⟩ := h.stable hact
    exact ⟨hflag hset, fun t ht => hkeep t (halone t ht)⟩
  · rintro s act s' _ ⟨hset, halone⟩ _ hmove
    refine rank_main hset (fun _ t hpos => halone t ?_) hmove
    rintro rfl
    cases hpos
  · rintro s _ ⟨-, halone⟩ hnot -
    have hingester := halone .ingester (fun heq => by cases heq)
    refine ⟨.main true, rfl, ?_⟩
    show (mainStep s true).isSome = true
    unfold mainStep
    cases hpc : s.main with
    | returned => exact absurd (finished_main.2 hpc) hnot
    | dropIngester => simp [hingester]
    | _ => rfl

end Stages

/-- Once SIGTERM has arrived, every schedule that leaves no thread out for ever brings
the hub down: `main` returns, and by then every thread has left its loop, but for
those it has warned about and, if the poller is one of them, the ingester. -/
theorem graceful_shutdown_completes [SignedF64 F] (cfg : Config) (symbol : Symbol)
    (gates : RiskGates F) (hcap : 0 < cfg.ringCapacity) (slots : Fin cf.size → Candle F)
    (reader : Reader cf) (sigSlots : Fin c.size → Signal F) (sigReader : Reader c)
    (position : F) (now : Nat)
    (r : WeakRun (processStep cfg symbol gates) ProcessAct.owner)
    (hstart : r.state 0 = Process.start gates slots reader sigSlots sigReader position
      now) (n : Nat) (hset : (r.state n).workers.shutdown = true) :
    ∃ k, n ≤ k ∧ (r.state k).main = .returned ∧
      ∀ t, (r.state k).finished t = true ∨ t ∈ (r.state k).detached ∨
        t = .ingester ∧ .poller ∈ (r.state k).detached := by
  have hinv : ∀ n, ProcessInv cfg symbol (r.state n) := fun n =>
    r.stable (fun s a t h hstep => h.step hcap hstep) (Nat.zero_le n)
      (hstart ▸ .start ..)
  suffices hreturns : ∃ k, n ≤ k ∧ (r.state k).finished .main = true by
    obtain ⟨k, hk, hmain⟩ := hreturns
    have hpc := finished_main.1 hmain
    have hleft : (r.state k).main.left = 0 := by rw [hpc]; rfl
    refine ⟨k, hk, hpc, ?_⟩
    intro t
    cases t with
    | main => exact .inl hmain
    | ingester => exact ((hinv k).dropped hleft).imp_right fun h => .inr ⟨rfl, h⟩
    | strategy | executor | poller =>
        exact ((hinv k).joined _ (hleft ▸ Nat.succ_pos _)).imp_right .inl
  have hflag : ∀ {i j}, i ≤ j → (r.state i).workers.shutdown = true →
      (r.state j).workers.shutdown = true := by
    intro i j hij hi
    refine (r.stable (P := fun s => ProcessInv cfg symbol s ∧ s.workers.shutdown = true)
      (fun s a t h hact => ?_) hij ⟨hinv i, hi⟩).2
    exact ⟨h.1.step hcap hact, (h.1.stable hact).1 h.2⟩
  have hgone : ∀ {i j} t, i ≤ j → (r.state i).finished t = true →
      (r.state j).finished t = true := by
    intro i j t hij hi
    refine (r.stable (P := fun s => ProcessInv cfg symbol s ∧ s.finished t = true)
      (fun s a t h hact => ?_) hij ⟨hinv i, hi⟩).2
    exact ⟨h.1.step hcap hact, (h.1.stable hact).2.2 _ h.2⟩
  by_contra hnever
  have hdone : ∀ {k : Nat} {P : Prop}, n ≤ k →
      P ∨ (r.state k).finished .main = true → P :=
    fun hk h => h.resolve_right fun hmain => hnever ⟨_, hk, hmain⟩
  obtain ⟨k₁, h₁, hb⟩ := main_bumps hcap r (hinv n) hset
  obtain ⟨k₂, h₂, hstrategy⟩ := strategy_leaves hcap r (hinv k₁) (hdone h₁ hb)
  obtain ⟨k₃, h₃, hexecutor⟩ := executor_leaves hcap r (hinv k₂) (hflag (by omega) hset)
    (hdone (by omega) hstrategy)
  obtain ⟨k₄, h₄, hpoller⟩ := poller_leaves hcap r (hinv k₁) (hflag h₁ hset)
  obtain ⟨k₅, h₅, hingester⟩ := ingester_leaves hcap r (hinv k₁) (hdone h₁ hb)
  let k := max k₃ (max k₄ k₅)
  have halone : ∀ t, t ≠ .main → (r.state k).finished t = true := by
    intro t ht
    cases t with
    | main => exact absurd rfl ht
    | strategy => exact hgone _ (by omega) (hdone (by omega) hstrategy)
    | executor => exact hgone _ (by omega) (hdone (by omega) hexecutor)
    | poller => exact hgone _ (by omega) (hdone (by omega) hpoller)
    | ingester => exact hgone _ (by omega) (hdone (by omega) hingester)
  obtain ⟨k', hk', hmain⟩ := main_returns hcap r (hinv k) (hflag (by omega) hset) halone
  exact hnever ⟨k', by omega, hmain⟩

/-- SIGTERM arrives when a candle has just made the strategy find a crossing: the
signal is still delivered and executed, and `main` gives up on the poller. -/
theorem graceful_shutdown_completes_crossing :
    let c : Capacity := ⟨2, by decide⟩
    let cfg : Config := ⟨1, 2, false, fun _ => false⟩
    let gates : RiskGates ℚ := ⟨100, 10, 1000⟩
    let start : Process c c ℚ :=
      .start gates (fun _ => flatCandle 0 0) ⟨2, rfl⟩ (fun _ => ⟨.buy, 0⟩) ⟨2, rfl⟩ 0 0
    ∃ r : WeakRun (processStep cfg ['A'] gates) ProcessAct.owner, r.state 0 = start ∧
      (r.state 16).workers.shutdown = true ∧
      ∃ k, 16 ≤ k ∧ (r.state k).main = .returned ∧
        ∀ t, (r.state k).finished t = true ∨ t ∈ (r.state k).detached ∨
          t = .ingester ∧ .poller ∈ (r.state k).detached := by
  intro c cfg gates start
  let acts : List (ProcessAct ℚ) :=
    .feed (.callPush .tryPush (flatCandle 1 1)) :: List.replicate 4 (.feed .producer) ++
      List.replicate 7 (.ingester .ok) ++ List.replicate 3
        (.strategy (some ⟨.buy, 1⟩)) ++
      [.sigterm] ++ List.replicate 3 (.main false) ++ List.replicate 8
      (.strategy none) ++
      List.replicate 10 (.executor 5) ++ List.replicate 2 (.main false) ++
      [.main true, .ingester .ok, .main false]
  obtain ⟨t, hrun, ht⟩ := exists_exec (processStep cfg ['A'] gates) start acts
    (fun t => t.finished .main = true ∧ t.workers.executor.totalSignals = 1)
    (by decide +kernel)
  have hend : ∀ act i, act.owner = some i →
      processStep cfg ['A'] gates t act = none := by
    intro act _ _
    rw [processStep, (of_decide_eq_true ht).1]
    rfl
  have hset : ((WeakRun.ofExec ProcessAct.owner hrun hend).state 16).workers.shutdown =
      true := by
    show ((exec (processStep cfg ['A'] gates) start (acts.take 16)).getD
      start).workers.shutdown = true
    decide +kernel
  exact ⟨.ofExec ProcessAct.owner hrun hend, rfl, hset,
    graceful_shutdown_completes cfg ['A'] gates (by decide) _ _ _ _ _ _ _ rfl 16 hset⟩

end Candlestore.Hub
