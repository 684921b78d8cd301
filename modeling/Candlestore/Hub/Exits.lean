import Candlestore.Hub.Shutdown
import Candlestore.Spsc.Ingest
import Candlestore.Spsc.Transfer

/-!
# How far each thread of the hub is from its exit

The strategy, the executor and the ingester each run a loop over a ring.  For each
of the three there is a rank that every step of the thread spends once the thread
has been told to leave: the flag is set for the first two, `running` is cleared for
the third.  The rank of the executor also counts the signals in the ring, because it
leaves only when a pop finds nothing.

`PushSync`, `PopSync` and `IngestSync` say that a thread is inside a call on its ring
exactly when its program point says so; with them every thread that has not left
can move.
-/

namespace Candlestore.Hub

open Lib Spsc

variable {c cf : Capacity} {F : Type}

/-! ## Each thread over its ring -/

/-- The strategy is in a push exactly when the ring is. -/
def PushSync (w : Workers c F) : Prop :=
  match w.strategy with
  | .push _ => ∃ item stalled start pc,
      w.ring.producer = .running .tryPush item stalled start pc ∧ pc.inAttempt = true
  | _ => w.ring.producer = .idle

/-- The executor is in a pop exactly when the ring is. -/
def PopSync (w : Workers c F) : Prop :=
  match w.receiver with
  | .pop => ∃ reader pc, w.ring.consumer = .running reader .tryPop pc
  | _ => ∃ reader, w.ring.consumer = .idle reader

/-- The ingester is in a pop exactly when the ring is, and its append returns. -/
def IngestSync (p : Pipeline cf F) : Prop :=
  match p.pc with
  | .pop => ∃ reader pc, p.ring.consumer = .running reader .tryPop pc
  | .stuck _ => False
  | _ => ∃ reader, p.ring.consumer = .idle reader

/-- How many steps the strategy takes to its exit once the flag is set and the
version has changed. -/
def strategyRank (w : Workers c F) : Nat :=
  match w.strategy with
  | .exited => 0
  | .check => 1
  | .recheck _ => 1
  | .wait => 2
  | .count => 3
  | .push _ => 3 + w.ring.producer.rank
  | .call _ => 8
  | .evaluate => 9

/-- How many steps the executor takes to its exit once the flag is set and nothing is
pushed any more. -/
def receiverRank (w : Workers c F) : Nat :=
  8 * w.ring.channel.inFlight + match w.receiver with
  | .exited => 0
  | .check => 1
  | .pop => 1 + w.ring.consumer.rank
  | .call => 6
  | .risk _ => 7

/-- How many steps the ingester takes to its exit once it is told to stop. -/
def ingestRank (p : Pipeline cf F) : Nat :=
  match p.pc with
  | .stopped => 0
  | .check => 1
  | .count => 2
  | .append _ => 3
  | .pop => 3 + p.ring.consumer.rank
  | .stuck _ => 0

/-- An access of `try_push` inside the strategy. -/
theorem strategy_push_progress {w : Workers c F} {sig item : Signal F} {stalled : Bool}
    {start : WriterView c (Signal F)} {pc : PushPc} {result : PushResult}
    {ring : State c (Signal F)} (hpc : w.strategy = .push sig)
    (hp : w.ring.producer = .running .tryPush item stalled start pc)
    (hin : pc.inAttempt = true)
    (hmove : PushMove w.ring .tryPush item stalled start pc result ring) :
    let w' : Workers c F := { w with ring := ring, strategy := .afterPush sig result }
    PushSync w' ∧ strategyRank w' < strategyRank w := by
  intro w'
  have hrank : strategyRank w = 3 + pc.rank := by
    simp only [strategyRank, hpc, hp, Producer.rank]
  have hpos := pc.rank_pos
  rw [hrank]
  cases hmove with
  | nearer pc' hproducer _ _ hin' hlt =>
      refine ⟨⟨item, stalled, start, pc', hproducer, hin'⟩, ?_⟩
      simp only [w', strategyRank, StrategyPc.afterPush, hproducer, Producer.rank]
      omega
  | full head _ _ hproducer =>
      refine ⟨hproducer, ?_⟩
      show 1 < 3 + pc.rank
      omega
  | pushed hproducer =>
      refine ⟨hproducer, ?_⟩
      show 3 < 3 + pc.rank
      omega
  | counted hpc | resumed hpc | cancelled hpc =>
      subst hpc
      cases hin

theorem strategyStep_progress {w w' : Workers c F} {crossing : Option (Signal F)}
    (hsync : PushSync w) (hstep : strategyStep w crossing = some w') :
    PushSync w' ∧ w'.ring.consumer = w.ring.consumer ∧ w'.receiver = w.receiver ∧
      w'.shutdown = w.shutdown ∧
      (w.shutdown = true → strategyRank w' < strategyRank w) := by
  unfold strategyStep at hstep
  cases hpc : w.strategy with
  | wait =>
      simp only [PushSync, hpc] at hsync
      simp only [hpc, Option.some.injEq] at hstep
      subst hstep
      refine ⟨hsync, rfl, rfl, rfl, fun _ => ?_⟩
      simp [strategyRank, hpc]
  | check =>
      simp only [PushSync, hpc] at hsync
      simp only [hpc, Option.some.injEq] at hstep
      subst hstep
      refine ⟨?_, rfl, rfl, rfl, fun hflag => ?_⟩
      · cases hflag : w.shutdown <;> exact hsync
      · simp [strategyRank, hpc, hflag]
  | evaluate =>
      simp only [PushSync, hpc] at hsync
      simp only [hpc, Option.some.injEq] at hstep
      subst hstep
      refine ⟨?_, rfl, rfl, rfl, fun _ => ?_⟩
      · cases crossing <;> exact hsync
      · cases crossing <;> simp [strategyRank, hpc]
  | call sig =>
      simp only [hpc] at hstep
      obtain ⟨ring, hcall, rfl⟩ := Option.map_eq_some_iff.1 hstep
      obtain rfl := step_callPush hcall
      refine ⟨⟨sig, false, _, .loadHead, rfl, rfl⟩, rfl, rfl, rfl, fun _ => ?_⟩
      simp [strategyRank, hpc, Producer.rank, PushPc.rank]
  | push sig =>
      simp only [PushSync, hpc] at hsync
      obtain ⟨item, stalled, start, pc, hp, hpc'⟩ := hsync
      simp only [hpc, hp, Option.some.injEq] at hstep
      subst hstep
      obtain ⟨hconsumer, -⟩ := pushStep_frame w.ring .tryPush item stalled start pc
      obtain ⟨hsync', hrank⟩ := strategy_push_progress hpc hp hpc' (pushStep_move ..)
      exact ⟨hsync', hconsumer, rfl, rfl, fun _ => hrank⟩
  | recheck sig =>
      simp only [PushSync, hpc] at hsync
      simp only [hpc, Option.some.injEq] at hstep
      subst hstep
      refine ⟨?_, rfl, rfl, rfl, fun hflag => ?_⟩
      · cases hflag : w.shutdown <;> exact hsync
      · simp [strategyRank, hpc, hflag]
  | count =>
      simp only [PushSync, hpc] at hsync
      simp only [hpc, Option.some.injEq] at hstep
      subst hstep
      refine ⟨hsync, rfl, rfl, rfl, fun _ => ?_⟩
      simp [strategyRank, hpc]
  | exited =>
      simp only [hpc] at hstep
      cases hstep

theorem enabled_strategyStep {w : Workers c F} (hsync : PushSync w)
    (h : w.strategy ≠ .exited) : (strategyStep w none).isSome := by
  unfold strategyStep
  cases hpc : w.strategy with
  | push sig =>
      simp only [PushSync, hpc] at hsync
      obtain ⟨item, stalled, start, pc, hp, -⟩ := hsync
      simp [hp]
  | call sig =>
      simp only [PushSync, hpc] at hsync
      simp [step, hsync]
  | exited => exact absurd hpc h
  | wait | check | evaluate | recheck | count => rfl

/-- An access of `try_pop` inside the executor. -/
theorem receiver_pop_progress {w : Workers c F} {reader : Reader c}
    {pc : PopPc (Signal F)} {result : PopResult (Signal F)} {ring : State c (Signal F)}
    (hring : Inv w.ring) (hpc : w.receiver = .pop)
    (hq : w.ring.consumer = .running reader .tryPop pc)
    (hmove : PopMove w.ring reader .tryPop pc result ring) :
    let w' : Workers c F := { w with ring := ring, receiver := .afterPop result }
    PopSync w' ∧ receiverRank w' < receiverRank w := by
  intro w'
  have hrank : receiverRank w = 8 * w.ring.channel.inFlight + (1 + pc.rank) := by
    simp only [receiverRank, hpc, hq, Consumer.rank]
  rw [hrank]
  cases hmove with
  | nearer pc' hconsumer hchannel hlt =>
      refine ⟨⟨reader, pc', hconsumer⟩, ?_⟩
      simp only [w', receiverRank, ReceiverPc.afterPop, hconsumer, hchannel,
        Consumer.rank]
      omega
  | empty tail hpc hempty hconsumer hchannel =>
      refine ⟨⟨reader, hconsumer⟩, ?_⟩
      subst hpc
      simp [w', receiverRank, ReceiverPc.afterPop, hchannel, PopPc.rank]
  | popped tail sig hpc hconsumer hchannel =>
      subst hpc
      have hok := hring.consumer
      rw [hq] at hok
      have hlt := (List.getElem?_eq_some_iff.1 hok.2).1
      refine ⟨⟨reader, hconsumer⟩, ?_⟩
      simp only [w', receiverRank, ReceiverPc.afterPop, hchannel, Channel.storeTail,
        Channel.inFlight, List.length_append, List.length_singleton, PopPc.rank]
      omega

section Receiver

variable [SignedF64 F] {gates : RiskGates F} {w w' : Workers c F} {now : Nat}

theorem receiverStep_progress (hring : Inv w.ring) (hsync : PopSync w)
    (hstep : receiverStep gates w now = some w') :
    PopSync w' ∧ w'.ring.producer = w.ring.producer ∧ w'.strategy = w.strategy ∧
      w'.shutdown = w.shutdown ∧
      (w.shutdown = true → receiverRank w' < receiverRank w) := by
  unfold receiverStep at hstep
  cases hpc : w.receiver with
  | call =>
      simp only [hpc] at hstep
      obtain ⟨ring, hcall, rfl⟩ := Option.map_eq_some_iff.1 hstep
      obtain ⟨reader, rfl⟩ := step_callPop hcall
      refine ⟨⟨reader, .loadTail, rfl⟩, rfl, rfl, rfl, fun _ => ?_⟩
      simp [receiverRank, hpc, Consumer.rank, PopPc.rank]
  | pop =>
      simp only [PopSync, hpc] at hsync
      obtain ⟨reader, pc, hq⟩ := hsync
      simp only [hpc, hq, Option.some.injEq] at hstep
      subst hstep
      obtain ⟨hproducer, -⟩ := popStep_frame w.ring reader .tryPop pc
      obtain ⟨hsync', hrank⟩ := receiver_pop_progress hring hpc hq (popStep_move ..)
      exact ⟨hsync', hproducer, rfl, rfl, fun _ => hrank⟩
  | risk sig =>
      simp only [PopSync, hpc] at hsync
      simp only [hpc, Option.some.injEq] at hstep
      subst hstep
      refine ⟨hsync, rfl, rfl, rfl, fun _ => ?_⟩
      simp [receiverRank, hpc]
  | check =>
      simp only [PopSync, hpc] at hsync
      simp only [hpc, Option.some.injEq] at hstep
      subst hstep
      refine ⟨?_, rfl, rfl, rfl, fun hflag => ?_⟩
      · cases hflag : w.shutdown <;> exact hsync
      · simp [receiverRank, hpc, hflag]
  | exited =>
      simp only [hpc] at hstep
      cases hstep

theorem enabled_receiverStep (hsync : PopSync w) (h : w.receiver ≠ .exited) :
    (receiverStep gates w now).isSome := by
  unfold receiverStep
  cases hpc : w.receiver with
  | pop =>
      simp only [PopSync, hpc] at hsync
      obtain ⟨reader, pc, hq⟩ := hsync
      simp [hq]
  | call =>
      simp only [PopSync, hpc] at hsync
      obtain ⟨reader, hq⟩ := hsync
      simp [step, hq]
  | exited => exact absurd hpc h
  | risk | check => rfl

end Receiver

/-- An access of `try_pop` inside the ingester. -/
theorem ingest_pop_progress {p : Pipeline cf F} {reader : Reader cf}
    {pc : PopPc (Candle F)} {result : PopResult (Candle F)} {ring : State cf (Candle F)}
    (hpc : p.pc = .pop) (hq : p.ring.consumer = .running reader .tryPop pc)
    (hmove : PopMove p.ring reader .tryPop pc result ring) :
    let p' : Pipeline cf F := { p with ring := ring, pc := .afterPop result }
    IngestSync p' ∧ ingestRank p' < ingestRank p := by
  intro p'
  have hrank : ingestRank p = 3 + pc.rank := by
    simp only [ingestRank, hpc, hq, Consumer.rank]
  rw [hrank]
  cases hmove with
  | nearer pc' hconsumer _ hlt =>
      refine ⟨⟨reader, pc', hconsumer⟩, ?_⟩
      simp only [p', ingestRank, IngestPc.afterPop, hconsumer, Consumer.rank]
      omega
  | empty _ hpc _ hconsumer | popped _ _ hpc hconsumer =>
      subst hpc
      refine ⟨⟨reader, hconsumer⟩, ?_⟩
      simp [p', ingestRank, IngestPc.afterPop, PopPc.rank]

section Ingester

variable [F64 F] {cfg : Config} {symbol : Symbol} {p p' : Pipeline cf F} {io : SpillIo}

/-- The append of the ingester returns, and the version does not fall. -/
theorem ingest_append_returns (h : IngestInv cfg symbol p) (hcap : 0 < cfg.ringCapacity)
    (candle : Candle F) (io : SpillIo) :
    ∃ store rejected, p.store.append cfg p.appendsRejected symbol candle io =
      some (store, rejected) ∧ p.store.version ≤ store.version := by
  obtain ⟨given, -, hfed, -⟩ := h.fed
  obtain ⟨store, r, hcall⟩ := hfed.returns hcap candle io
  have hversion : p.store.version ≤ store.version := by
    rw [hfed.version, (hfed.append hcall).version, validOf, validOf, List.filter_append,
      List.length_append]
    exact Nat.le_add_right ..
  have happend : ∃ rejected,
      p.store.append cfg p.appendsRejected symbol candle io =
        some (store, rejected) := by
    simp only [Store.append, hcall, Option.bind_eq_bind, Option.bind_some]
    split <;> exact ⟨_, rfl⟩
  obtain ⟨rejected, happend⟩ := happend
  exact ⟨store, rejected, happend, hversion⟩

theorem ingestStep_progress (h : IngestInv cfg symbol p) (hcap : 0 < cfg.ringCapacity)
    (hsync : IngestSync p) (hstep : ingestStep cfg symbol p io = some p') :
    IngestSync p' ∧ p'.running = p.running ∧ p.store.version ≤ p'.store.version ∧
      (p.running = false → ingestRank p' < ingestRank p) := by
  unfold ingestStep at hstep
  cases hpc : p.pc with
  | check =>
      simp only [IngestSync, hpc] at hsync
      simp only [hpc] at hstep
      split at hstep
      · next hrunning =>
        obtain ⟨ring, hcall, rfl⟩ := Option.map_eq_some_iff.1 hstep
        obtain ⟨reader, rfl⟩ := step_callPop hcall
        refine ⟨⟨reader, .loadTail, rfl⟩, rfl, Nat.le_refl _, fun hstop => ?_⟩
        rw [hrunning] at hstop
        cases hstop
      · cases hstep
        refine ⟨hsync, rfl, Nat.le_refl _, fun _ => ?_⟩
        simp [ingestRank, hpc]
  | pop =>
      simp only [IngestSync, hpc] at hsync
      obtain ⟨reader, pc, hq⟩ := hsync
      simp only [hpc, hq, Option.some.injEq] at hstep
      subst hstep
      obtain ⟨hsync', hrank⟩ := ingest_pop_progress hpc hq (popStep_move ..)
      exact ⟨hsync', rfl, Nat.le_refl _, fun _ => hrank⟩
  | append candle =>
      simp only [IngestSync, hpc] at hsync
      obtain ⟨store, rejected, happend, hversion⟩ :=
        ingest_append_returns h hcap candle io
      simp only [hpc, happend, Option.some.injEq] at hstep
      subst hstep
      refine ⟨hsync, rfl, hversion, fun _ => ?_⟩
      simp [ingestRank, hpc]
  | count =>
      simp only [IngestSync, hpc] at hsync
      simp only [hpc, Option.some.injEq] at hstep
      subst hstep
      refine ⟨hsync, rfl, Nat.le_refl _, fun _ => ?_⟩
      simp [ingestRank, hpc]
  | stopped =>
      simp only [hpc] at hstep
      cases hstep
  | stuck candle =>
      simp only [hpc] at hstep
      cases hstep

theorem enabled_ingestStep (h : IngestInv cfg symbol p) (hcap : 0 < cfg.ringCapacity)
    (hsync : IngestSync p) (hpc : p.pc ≠ .stopped) :
    (ingestStep cfg symbol p .ok).isSome := by
  unfold ingestStep
  cases hp : p.pc with
  | check =>
      simp only [IngestSync, hp] at hsync
      obtain ⟨reader, hq⟩ := hsync
      cases p.running <;> simp [step, hq]
  | pop =>
      simp only [IngestSync, hp] at hsync
      obtain ⟨reader, pc, hq⟩ := hsync
      simp [hq]
  | append candle =>
      obtain ⟨store, rejected, happend, -⟩ := ingest_append_returns h hcap candle .ok
      simp [happend]
  | count => rfl
  | stopped => exact absurd hp hpc
  | stuck candle =>
      simp only [IngestSync, hp] at hsync

end Ingester

end Candlestore.Hub
