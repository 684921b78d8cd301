import Candlestore.Feed.Generator
import Candlestore.Lib.Fair
import Candlestore.Lib.Pacer
import Candlestore.Spsc.Ingest

/-!
# The feed handler

The process has two threads.  `main` paces itself, generates a candle, pushes it with
`push_until` and counts it, until SIGTERM or SIGINT sets `shutdown`, which is also the
cancel flag of the push; then it publishes the count, joins the metrics poller and
drops the writer, which removes the name of the segment.  Whoever reads the ring may do
so, or stop doing so, at any time.

`generated` and `beats` record the candles and when they were due; the code never
reads them.
-/

namespace Candlestore.Feed

open Lib Spsc

/-- The next thing `main` does. -/
inductive FeedPc (F : Type) where
  /-- Load `shutdown`. -/
  | check
  | pace
  | generate
  | call (candle : Candle F)
  /-- The next step of `push_until`. -/
  | push (candle : Candle F)
  | count
  | flush
  | joinPoller
  | dropWriter
  | exited

/-- The metrics poller of the feed handler. -/
inductive FeedPollerPc where
  | check
  | park
  | publish
  | exited
  deriving DecidableEq, Repr

/-- The process and the ring it writes. -/
structure Handler (c : Capacity) (F : Type) where
  ring : State c (Candle F)
  market : Market F
  clock : Nat
  nextTick : Nat
  count : UInt64
  candlesPushed : UInt64
  published : UInt64
  linked : Bool
  poller : FeedPollerPc
  pc : FeedPc F
  generated : List (Candle F)
  beats : List Beat

/-- The clocks of one iteration: how much of the monotonic clock has passed, by how much
a sleep was too long, and the two readings of the wall clock. -/
structure FeedInput where
  elapsed : Nat
  overslept : Nat
  raw : Option Nat
  now : Option Nat

/-- The steps of the feed handler and of its surroundings. -/
inductive FeedAct (F : Type) where
  | main (input : FeedInput)
  | poller
  /-- A step on the reader's side of the ring. -/
  | consumer (a : Action (Candle F))
  /-- A signal handler sets `shutdown`. -/
  | sigterm

/-- The threads of the feed handler, of which `main` runs the feed. -/
inductive FeedThread where
  | main
  | poller
  deriving DecidableEq, Repr

variable {c : Capacity} {F : Type}

/-- The thread that takes the step, if it is one of the process. -/
def FeedAct.owner : FeedAct F → Option FeedThread
  | .main _ => some .main
  | .poller => some .poller
  | .consumer _ => none
  | .sigterm => none

/-- `FEED_RATE`, clamped. -/
def rateOf (rateEnv : Nat) : Nat := min (max rateEnv 1) 1000000000

/-- `interval`, in nanoseconds. -/
def intervalOf (rateEnv : Nat) : Nat := 1000000000 / rateOf rateEnv

/-- The rate limit: sleep until the next tick, or give up on the ticks that were missed
if there are more than a hundred. -/
def pace (interval now nextTick overslept : Nat) : Beat :=
  if now < nextTick then ⟨now, nextTick, nextTick + overslept⟩
  else if nextTick + interval * 100 < now then ⟨now, now, now⟩
  else ⟨now, nextTick, now⟩

/-- Where an access of `push_until` leaves `main`. -/
def FeedPc.afterPush (candle : Candle F) : PushResult → FeedPc F
  | .pushed => .count
  | .cancelled => .flush
  | _ => .push candle

section Steps

variable [SignedF64 F] (interval : Nat)

/-- `main` from its loop to its return. -/
def feedStep (h : Handler c F) (i : FeedInput) : Option (Handler c F) :=
  match h.pc with
  | .check => some { h with pc := if h.ring.cancel then .flush else .pace }
  | .pace =>
      let beat := pace interval (h.clock + i.elapsed) h.nextTick i.overslept
      some { h with
        clock := beat.time
        nextTick := beat.tick + interval
        beats := h.beats ++ [beat]
        pc := .generate }
  | .generate =>
      let (candle, market) := h.market.generate (nowNanos i.raw) (nowNanos i.now)
      some { h with
        market := market
        generated := h.generated ++ [candle]
        pc := .call candle }
  | .call candle =>
      (step h.ring (.callPush .pushUntil candle)).map fun ring =>
        { h with ring := ring, pc := .push candle }
  | .push candle =>
      match h.ring.producer with
      | .running kind item stalled start pc =>
          some { h with
            ring := pushStep h.ring kind item stalled start pc
            pc := .afterPush candle (pushResult h.ring pc) }
      | .idle => none
  | .count =>
      let count := h.count + 1
      some { h with
        count := count
        candlesPushed := if count &&& 1023 = 0 then count else h.candlesPushed
        pc := .check }
  | .flush => some { h with candlesPushed := h.count, pc := .joinPoller }
  | .joinPoller => if h.poller = .exited then some { h with pc := .dropWriter } else none
  | .dropWriter => some { h with linked := false, pc := .exited }
  | .exited => none

/-- The loop of the metrics poller. -/
def feedPollerStep (h : Handler c F) : Option (Handler c F) :=
  match h.poller with
  | .check => some { h with poller := if h.ring.cancel then .exited else .park }
  | .park => some { h with poller := .publish }
  | .publish => some { h with published := h.candlesPushed, poller := .check }
  | .exited => none

/-- A step of the feed handler with the reader on the other side of its ring. -/
def handlerStep (h : Handler c F) : FeedAct F → Option (Handler c F)
  | .main input => feedStep interval h input
  | .poller => feedPollerStep h
  | .consumer a =>
      if a.byProducer then none else (step h.ring a).map fun ring =>
        { h with ring := ring }
  | .sigterm => some { h with ring := { h.ring with cancel := true } }

/-- The ring has been created and nothing has happened yet. -/
def Handler.start (slots : Fin c.size → Candle F) (clock : Nat) : Handler c F where
  ring := .start slots none
  market := .start
  clock := clock
  nextTick := clock
  count := 0
  candlesPushed := 0
  published := 0
  linked := true
  poller := .check
  pc := .check
  generated := []
  beats := []

end Steps

/-! ## `push_until` -/

/-- How many steps a `push_until` takes to its return once it is cancelled. -/
def untilRank : Producer c (Candle F) → Nat
  | .idle => 0
  | .running _ _ stalled _ pc =>
      (if stalled then 0 else 5) + if pc.inAttempt then pc.rank + 1 else 1

theorem untilRank_pos {kind : PushKind} {item : Candle F} {stalled : Bool}
    {start : WriterView c (Candle F)} {pc : PushPc} :
    0 < untilRank (.running kind item stalled start pc) := by
  cases pc <;> exact Nat.succ_pos _

/-- What the step of a `push_until` comes to. -/
inductive UntilMove (s s' : State c (Candle F)) (candle : Candle F) :
    FeedPc F → Prop where
  | goesOn (stalled : Bool) (start : WriterView c (Candle F)) (pc : PushPc) :
      s'.producer = .running .pushUntil candle stalled start pc →
      (pc = .countFull → stalled = false) →
      s'.channel.pushed = s.channel.pushed →
      (s.cancel = true → untilRank s'.producer < untilRank s.producer) →
      UntilMove s s' candle (.push candle)
  | pushed : s'.producer = .idle → s'.channel.pushed = s.channel.pushed ++ [candle] →
      UntilMove s s' candle .count
  | cancelled : s'.producer = .idle → s'.channel.pushed = s.channel.pushed →
      s.cancel = true →
      UntilMove s s' candle .flush

theorem pushUntil_move {s t : State c (Candle F)} {candle : Candle F} {stalled : Bool}
    {start : WriterView c (Candle F)} {pc : PushPc} {result : PushResult}
    (hp : s.producer = .running .pushUntil candle stalled start pc)
    (hfirst : pc = .countFull → stalled = false)
    (hmove : PushMove s .pushUntil candle stalled start pc result t) :
    UntilMove s t candle (.afterPush candle result) := by
  cases hmove with
  | nearer pc' hproducer hpushed hin hin' hlt =>
      refine .goesOn stalled start pc' hproducer ?_ hpushed fun _ => ?_
      · rintro rfl
        cases hin'
      · rw [hp, hproducer]
        simp only [untilRank, hin, hin', if_true]
        omega
  | full head hpc _ hproducer hpushed =>
      subst hpc
      cases stalled with
      | false =>
          refine .goesOn false start .countFull hproducer
            (fun _ => rfl) hpushed fun _ => ?_
          rw [hp, hproducer]
          show 5 + 1 < 5 + (3 + 1)
          omega
      | true =>
          refine .goesOn true start .checkCancel hproducer (fun h => by cases h) hpushed
            fun _ => ?_
          rw [hp, hproducer]
          show 0 + 1 < 0 + (3 + 1)
          omega
  | pushed hproducer hpushed => exact .pushed hproducer hpushed
  | counted hpc hproducer hpushed =>
      subst hpc
      cases hfirst rfl
      refine .goesOn true start _ hproducer (fun h => by cases h) hpushed fun _ => ?_
      rw [hp, hproducer]
      show 0 + (4 + 1) < 5 + 1
      omega
  | resumed _ hcancel hproducer hpushed =>
      refine .goesOn stalled start .loadHead hproducer (fun h => by cases h) hpushed ?_
      intro hset
      cases hcancel.symm.trans hset
  | cancelled _ hset hproducer hpushed => exact .cancelled hproducer hpushed hset

/-! ## What a step can do -/

/-- `main` has returned. -/
def FeedPc.hasExited : FeedPc F → Bool
  | .exited => true
  | _ => false

/-- `main` is in a push exactly when the ring is. -/
def UntilSync (h : Handler c F) : Prop :=
  match h.pc with
  | .push candle => ∃ stalled start pc,
      h.ring.producer = .running .pushUntil candle stalled start pc ∧
        (pc = .countFull → stalled = false)
  | _ => h.ring.producer = .idle

/-- Everything a step of `main` can do. -/
inductive FeedMove [SignedF64 F] (interval : Nat) (h : Handler c F) :
    Handler c F → Prop where
  | stop : h.pc = .check → h.ring.cancel = true →
      FeedMove interval h { h with pc := .flush }
  | loop : h.pc = .check → h.ring.cancel = false →
      FeedMove interval h { h with pc := .pace }
  | pace (elapsed overslept : Nat) (beat : Beat) : h.pc = .pace →
      beat = pace interval (h.clock + elapsed) h.nextTick overslept →
      FeedMove interval h { h with
        clock := beat.time
        nextTick := beat.tick + interval
        beats := h.beats ++ [beat]
        pc := .generate }
  | generate (raw now : Option Nat) (candle : Candle F) (market : Market F) :
      h.pc = .generate →
      h.market.generate (nowNanos raw) (nowNanos now) = (candle, market) →
      FeedMove interval h
        { h with
          market := market
          generated := h.generated ++ [candle]
          pc := .call candle }
  | call (candle : Candle F) : h.pc = .call candle → h.ring.producer = .idle →
      FeedMove interval h { h with
        ring := { h.ring with
          producer := .running .pushUntil candle false h.ring.channel.toWriterView
            .loadHead }
        pc := .push candle }
  | push (candle : Candle F) (ring : State c (Candle F)) (pc : FeedPc F) :
      h.pc = .push candle →
      (Inv h.ring → Inv ring) → ring.cancel = h.ring.cancel →
      (ring.consumer = h.ring.consumer ∧ ring.channel.popped = h.ring.channel.popped) →
      0 < untilRank h.ring.producer → UntilMove h.ring ring candle pc →
      FeedMove interval h { h with ring := ring, pc := pc }
  | count : h.pc = .count → FeedMove interval h { h with
      count := h.count + 1
      candlesPushed := if h.count + 1 &&& 1023 = 0 then h.count + 1 else h.candlesPushed
      pc := .check }
  | flush : h.pc = .flush →
      FeedMove interval h { h with candlesPushed := h.count, pc := .joinPoller }
  | joinPoller : h.pc = .joinPoller → h.poller = .exited →
      FeedMove interval h { h with pc := .dropWriter }
  | dropWriter : h.pc = .dropWriter →
      FeedMove interval h { h with linked := false, pc := .exited }

section Moves

variable [SignedF64 F] {interval : Nat} {h h' : Handler c F}

/-- Inversion of a step of `main`. -/
theorem feedStep_move (hsync : UntilSync h) {i : FeedInput}
    (hstep : feedStep interval h i = some h') : FeedMove interval h h' := by
  unfold feedStep at hstep
  unfold UntilSync at hsync
  cases hpc : h.pc with
  | check =>
      simp only [hpc, Option.some.injEq] at hstep
      subst hstep
      cases hcancel : h.ring.cancel with
      | true => exact .stop hpc hcancel
      | false => exact .loop hpc hcancel
  | pace =>
      simp only [hpc, Option.some.injEq] at hstep
      subst hstep
      exact .pace i.elapsed i.overslept _ hpc rfl
  | generate =>
      simp only [hpc, Option.some.injEq] at hstep
      subst hstep
      exact .generate i.raw i.now _ _ hpc rfl
  | call candle =>
      simp only [hpc] at hstep hsync
      obtain ⟨ring, hcall, rfl⟩ := Option.map_eq_some_iff.1 hstep
      obtain rfl := step_callPush hcall
      exact .call candle hpc hsync
  | push candle =>
      simp only [hpc] at hstep hsync
      obtain ⟨stalled, start, pc, hproducer, hfirst⟩ := hsync
      simp only [hproducer, Option.some.injEq] at hstep
      subst hstep
      refine .push candle _ _ hpc (fun hring => hring.pushStep hproducer)
        (pushStep_cancel ..) (pushStep_frame ..) ?_
        (pushUntil_move hproducer hfirst (pushStep_move ..))
      rw [hproducer]
      exact untilRank_pos
  | count =>
      simp only [hpc, Option.some.injEq] at hstep
      subst hstep
      exact .count hpc
  | flush =>
      simp only [hpc, Option.some.injEq] at hstep
      subst hstep
      exact .flush hpc
  | joinPoller =>
      simp only [hpc, Option.ite_none_right_eq_some, Option.some.injEq] at hstep
      obtain ⟨hexited, rfl⟩ := hstep
      exact .joinPoller hpc hexited
  | dropWriter =>
      simp only [hpc, Option.some.injEq] at hstep
      subst hstep
      exact .dropWriter hpc
  | exited =>
      simp only [hpc] at hstep
      cases hstep

end Moves

/-- A step on the reader's side leaves the writer, what it has pushed and the cancel flag
alone. -/
theorem step_byConsumer {s t : State c (Candle F)} {a : Action (Candle F)}
    (ha : a.byProducer = false) (hstep : step s a = some t) :
    t.producer = s.producer ∧ t.channel.pushed = s.channel.pushed ∧
      t.cancel = s.cancel := by
  cases a with
  | callPush kind item | producer | setCancel cancel => cases ha
  | openReader capacity =>
      simp only [Spsc.step] at hstep
      split at hstep <;> cases hstep <;> exact ⟨rfl, rfl, rfl⟩
  | closeReader =>
      simp only [Spsc.step] at hstep
      split at hstep <;> cases hstep
      exact ⟨rfl, rfl, rfl⟩
  | callPop kind =>
      obtain ⟨reader, rfl⟩ := step_callPop hstep
      exact ⟨rfl, rfl, rfl⟩
  | consumer =>
      simp only [Spsc.step] at hstep
      split at hstep
      · next reader kind pc hc =>
        cases hstep
        obtain ⟨hproducer, hpushed⟩ := popStep_frame s reader kind pc
        exact ⟨hproducer, hpushed, popStep_cancel ..⟩
      · cases hstep

/-! ## What has been sent and counted -/

/-- The candle that has been generated and is not in the ring. -/
def FeedPc.inHand : FeedPc F → List (Candle F)
  | .call candle => [candle]
  | .push candle => [candle]
  | _ => []

/-- Pushes not yet counted. -/
def FeedPc.uncounted : FeedPc F → Nat
  | .count => 1
  | _ => 0

/-- The loop is over. -/
def FeedPc.stopping : FeedPc F → Bool
  | .flush => true
  | .joinPoller => true
  | .dropWriter => true
  | .exited => true
  | _ => false

/-- The count has been published. -/
def FeedPc.flushed : FeedPc F → Bool
  | .joinPoller => true
  | .dropWriter => true
  | .exited => true
  | _ => false

/-- The poller has been joined. -/
def FeedPc.alone : FeedPc F → Bool
  | .dropWriter => true
  | .exited => true
  | _ => false

/-- What is true of the ring and of the counters in every reachable state. -/
structure HandlerInv (h : Handler c F) : Prop where
  ring : Inv h.ring
  sync : UntilSync h
  /-- Everything generated is in the ring, but for the candle in hand and for the one
  that was being pushed when the loop ended. -/
  sent : ∃ dropped, h.generated = h.ring.channel.pushed ++ (h.pc.inHand ++ dropped) ∧
    dropped.length ≤ h.pc.stopping.toNat
  /-- The counter lags by less than 1024, and is exact after the flush. -/
  counted : ∃ n, h.ring.channel.pushed.length = n + h.pc.uncounted ∧
    h.count = UInt64.ofNat n ∧
    h.candlesPushed =
      (if h.pc.flushed then h.count else UInt64.ofNat (n / 1024 * 1024)) ∧
    ∃ k ≤ n, h.published = UInt64.ofNat k
  joined : h.pc.alone = true → h.poller = .exited
  /-- The name goes last. -/
  linked : h.linked = !h.pc.hasExited

theorem HandlerInv.start [SignedF64 F] (slots : Fin c.size → Candle F) (clock : Nat) :
    HandlerInv (Handler.start slots clock) where
  ring := Inv.start slots none
  sync := rfl
  sent := ⟨[], rfl, Nat.le_refl 0⟩
  counted := ⟨0, rfl, rfl, rfl, 0, Nat.le_refl 0, rfl⟩
  joined := fun h => by cases h
  linked := rfl

theorem counter_and_1023 (n : Nat) : UInt64.ofNat n &&& 1023 = 0 ↔ n % 1024 = 0 := by
  have hmask : (UInt64.ofNat n &&& 1023).toNat = n % 1024 := by
    have h := toNat_and_mask (UInt64.ofNat n) 1024 (k := 10) rfl
    rw [toNat_counter_mod n (by omega)] at h
    exact h
  rw [← hmask, ← UInt64.toNat_inj]
  rfl

/-- What the reader's side does leaves the process alone. -/
theorem HandlerInv.reread {h : Handler c F} (hinv : HandlerInv h)
    {ring : State c (Candle F)} (hring : Inv ring)
    (hproducer : ring.producer = h.ring.producer)
    (hpushed : ring.channel.pushed = h.ring.channel.pushed) :
    HandlerInv { h with ring := ring } := by
  have hsync := hinv.sync
  have hsent := hinv.sent
  have hcounted := hinv.counted
  refine { hinv with ring := hring, sync := ?_, sent := ?_, counted := ?_ }
  · unfold UntilSync at hsync ⊢
    dsimp only
    rw [hproducer]
    exact hsync
  · dsimp only
    rw [hpushed]
    exact hsent
  · dsimp only
    rw [hpushed]
    exact hcounted

theorem HandlerInv.poller {h h' : Handler c F} (hinv : HandlerInv h)
    (hstep : feedPollerStep h = some h') : HandlerInv h' := by
  have hjoined := hinv.joined
  obtain ⟨n, hlength, hcount, hpushed, -⟩ := hinv.counted
  unfold feedPollerStep at hstep
  cases hpc : h.poller with
  | check | park =>
      simp only [hpc, Option.some.injEq] at hstep hjoined
      subst hstep
      exact { hinv with joined := fun hx => by cases hjoined hx }
  | publish =>
      simp only [hpc, Option.some.injEq] at hstep hjoined
      subst hstep
      refine { hinv with
        counted := ⟨n, hlength, hcount, hpushed, ?_⟩
        joined := fun hx => by cases hjoined hx }
      cases hflushed : h.pc.flushed with
      | true => exact ⟨n, Nat.le_refl n, by simp [hpushed, hflushed, hcount]⟩
      | false =>
          exact ⟨n / 1024 * 1024,
            Nat.div_mul_le_self n 1024, by simp [hpushed, hflushed]⟩
  | exited =>
      simp only [hpc] at hstep
      cases hstep

theorem feedPollerStep_frame {h h' : Handler c F} (hstep : feedPollerStep h = some h') :
    h'.ring = h.ring ∧ h'.pc = h.pc ∧ h'.beats = h.beats ∧ h'.clock = h.clock ∧
      h'.nextTick = h.nextTick ∧ h'.generated = h.generated ∧ h'.market = h.market := by
  unfold feedPollerStep at hstep
  split at hstep
  · cases hstep
    exact ⟨rfl, rfl, rfl, rfl, rfl, rfl, rfl⟩
  · cases hstep
    exact ⟨rfl, rfl, rfl, rfl, rfl, rfl, rfl⟩
  · cases hstep
    exact ⟨rfl, rfl, rfl, rfl, rfl, rfl, rfl⟩
  · cases hstep

section Step

variable [SignedF64 F] {interval : Nat} {h h' : Handler c F}

theorem HandlerInv.main (hinv : HandlerInv h) (hmove : FeedMove interval h h') :
    HandlerInv h' := by
  obtain ⟨hring, hsync, ⟨dropped, hsent, hdropped⟩,
    ⟨n, hlength, hcount, hpushed, hpublished⟩, hjoined, hlinked⟩ := hinv
  unfold UntilSync at hsync
  cases hmove with
  | stop hpc =>
      rw [hpc] at hsync hsent hdropped hlength hpushed hlinked
      exact ⟨hring, hsync, ⟨dropped, hsent, hdropped.trans (Nat.zero_le _)⟩,
        ⟨n, hlength, hcount, hpushed, hpublished⟩, fun hx => (by cases hx), hlinked⟩
  | loop hpc =>
      rw [hpc] at hsync hsent hdropped hlength hpushed hlinked
      exact ⟨hring, hsync, ⟨dropped, hsent, hdropped⟩,
        ⟨n, hlength, hcount, hpushed, hpublished⟩, fun hx => (by cases hx), hlinked⟩
  | pace elapsed overslept beat hpc =>
      rw [hpc] at hsync hsent hdropped hlength hpushed hlinked
      exact ⟨hring, hsync, ⟨dropped, hsent, hdropped⟩,
        ⟨n, hlength, hcount, hpushed, hpublished⟩, fun hx => (by cases hx), hlinked⟩
  | generate raw now candle market hpc =>
      rw [hpc] at hsync hsent hdropped hlength hpushed hlinked
      have hnil : dropped = [] := List.length_eq_zero_iff.1 (Nat.le_zero.1 hdropped)
      refine ⟨hring, hsync, ⟨[], ?_, Nat.zero_le _⟩,
        ⟨n, hlength, hcount, hpushed, hpublished⟩,
        fun hx => (by cases hx), hlinked⟩
      simp only [hsent, hnil, FeedPc.inHand, List.append_nil]
  | call candle hpc =>
      rw [hpc] at hsync hsent hdropped hlength hpushed hlinked
      exact ⟨{ hring with producer := rfl },
        ⟨false, _, .loadHead, rfl, fun hx => (by cases hx)⟩,
        ⟨dropped, hsent, hdropped⟩, ⟨n, hlength, hcount, hpushed, hpublished⟩,
        fun hx => (by cases hx), hlinked⟩
  | push candle ring pc hpc hring' _ _ _ hmove =>
      rw [hpc] at hsync hsent hdropped hlength hpushed hlinked
      have hnil : dropped = [] := List.length_eq_zero_iff.1 (Nat.le_zero.1 hdropped)
      subst hnil
      cases hmove with
      | goesOn stalled start pc hp hfirst hsame =>
          refine ⟨hring' hring, ⟨stalled, start, pc, hp, hfirst⟩,
            ⟨[], ?_, Nat.zero_le _⟩,
            ⟨n, ?_, hcount, hpushed, hpublished⟩, fun hx => (by cases hx), hlinked⟩
          · simpa only [hsame] using hsent
          · simpa only [hsame] using hlength
      | pushed hp hmore =>
          refine ⟨hring' hring, hp, ⟨[], ?_, Nat.zero_le _⟩,
            ⟨n, ?_, hcount, hpushed, hpublished⟩, fun hx => (by cases hx), hlinked⟩
          · simpa only [hmore, FeedPc.inHand, List.append_nil] using hsent
          · rw [hmore, List.length_append, hlength]
            rfl
      | cancelled hp hsame =>
          refine ⟨hring' hring, hp, ⟨[candle], ?_, Nat.le_refl _⟩,
            ⟨n, ?_, hcount, hpushed, hpublished⟩, fun hx => (by cases hx), hlinked⟩
          · simpa only [hsame, FeedPc.inHand, List.append_nil, List.nil_append]
              using hsent
          · rw [hsame]
            exact hlength
  | count hpc =>
      rw [hpc] at hsync hsent hdropped hlength hpushed hlinked
      obtain ⟨k, hk, hpublished⟩ := hpublished
      have hnext : h.count + 1 = UInt64.ofNat (n + 1) := by rw [hcount, ofNat_succ_word]
      have hbefore : h.candlesPushed = UInt64.ofNat (n / 1024 * 1024) := hpushed
      refine ⟨hring, hsync, ⟨dropped, hsent, hdropped⟩,
        ⟨n + 1, hlength, hnext, ?_, k, Nat.le_succ_of_le hk, hpublished⟩,
        fun hx => (by cases hx), hlinked⟩
      simp only [hnext, hbefore, counter_and_1023, FeedPc.flushed, Bool.false_eq_true,
        if_false]
      split
      · congr 1
        omega
      · congr 2
        omega
  | flush hpc =>
      rw [hpc] at hsync hsent hdropped hlength hpushed hlinked
      exact ⟨hring, hsync, ⟨dropped, hsent, hdropped⟩,
        ⟨n, hlength, hcount, rfl, hpublished⟩,
        fun hx => (by cases hx), hlinked⟩
  | joinPoller hpc hexited =>
      rw [hpc] at hsync hsent hdropped hlength hpushed hlinked
      exact ⟨hring, hsync, ⟨dropped, hsent, hdropped⟩,
        ⟨n, hlength, hcount, hpushed, hpublished⟩,
        fun _ => hexited, hlinked⟩
  | dropWriter hpc =>
      rw [hpc] at hsync hsent hdropped hlength hpushed hjoined
      exact ⟨hring, hsync, ⟨dropped, hsent, hdropped⟩,
        ⟨n, hlength, hcount, hpushed, hpublished⟩,
        fun _ => hjoined rfl, rfl⟩

/-- What a step of the process can be. -/
theorem handlerStep_cases (hsync : UntilSync h) {act : FeedAct F}
    (hstep : handlerStep interval h act = some h') :
    act.owner = some .main ∧ FeedMove interval h h' ∨
      act.owner = some .poller ∧ feedPollerStep h = some h' ∨
      act.owner = none ∧ ∃ ring, h' = { h with ring := ring } ∧
        ((∃ a, a.byProducer = false ∧ step h.ring a = some ring) ∨
          ring = { h.ring with cancel := true }) := by
  cases act with
  | main input => exact .inl ⟨rfl, feedStep_move hsync hstep⟩
  | poller => exact .inr (.inl ⟨rfl, hstep⟩)
  | consumer a =>
      simp only [handlerStep, Option.ite_none_left_eq_some] at hstep
      obtain ⟨ha, hmap⟩ := hstep
      obtain ⟨ring, hring, rfl⟩ := Option.map_eq_some_iff.1 hmap
      exact .inr (.inr ⟨rfl, ring, rfl, .inl ⟨a, Bool.eq_false_iff.2 ha, hring⟩⟩)
  | sigterm =>
      cases hstep
      exact .inr (.inr ⟨rfl, _, rfl, .inr rfl⟩)

theorem HandlerInv.step (hinv : HandlerInv h) {act : FeedAct F}
    (hstep : handlerStep interval h act = some h') : HandlerInv h' := by
  obtain ⟨-, hmove⟩ | ⟨-, hpoller⟩ | ⟨-, ring, rfl, ⟨a, ha, hring⟩ | rfl⟩ :=
    handlerStep_cases hinv.sync hstep
  · exact hinv.main hmove
  · exact hinv.poller hpoller
  · obtain ⟨hproducer, hpushed, -⟩ := step_byConsumer ha hring
    exact hinv.reread (hinv.ring.step hring) hproducer hpushed
  · exact { hinv with ring := { hinv.ring with } }

end Step

/-! ## The rate limit -/

/-- The iteration has its tick and no candle yet. -/
def FeedPc.due : FeedPc F → Nat
  | .generate => 1
  | _ => 0

/-- The beats so far keep the interval, and the next one is due in time. -/
structure PaceInv (interval clock : Nat) (h : Handler c F) : Prop where
  paced : Paced interval (interval * 100) h.beats
  last : ∀ b, h.beats.getLast? = some b → b.time ≤ h.clock ∧
    b.tick + interval ≤ h.nextTick
  first : ∀ b, h.beats.head? = some b → clock ≤ b.tick
  fresh : h.beats = [] → clock ≤ h.nextTick
  generated : h.beats.length = h.generated.length + h.pc.due

theorem pace_spec (interval now nextTick overslept : Nat) :
    (pace interval now nextTick overslept).now = now ∧
      nextTick ≤ (pace interval now nextTick overslept).tick ∧
      (pace interval now nextTick overslept).tick ≤
        (pace interval now nextTick overslept).time ∧
      now ≤ (pace interval now nextTick overslept).tick + interval * 100 := by
  unfold pace
  split
  · dsimp only
    omega
  · split <;> dsimp only <;> omega

section Rate

variable [SignedF64 F] {interval clock : Nat} {h h' : Handler c F}

theorem PaceInv.start (slots : Fin c.size → Candle F) :
    PaceInv interval clock (Handler.start slots clock) where
  paced := .nil
  last := fun b h => by cases h
  first := fun b h => by cases h
  fresh := fun _ => Nat.le_refl clock
  generated := rfl

theorem PaceInv.main (hinv : PaceInv interval clock h) (hmove : FeedMove interval h h') :
    PaceInv interval clock h' := by
  have hgenerated := hinv.generated
  cases hmove with
  | pace elapsed overslept beat hpc hbeat =>
      obtain ⟨hnow, htick, hdue, hslack⟩ :=
        pace_spec interval (h.clock + elapsed) h.nextTick overslept
      rw [← hbeat] at hnow htick hdue hslack
      have hlast := hinv.last
      refine ⟨?_, ?_, ?_, ?_, ?_⟩
      · refine hinv.paced.snoc hdue (hnow.le.trans hslack) ?_
        intro b hb
        have := hlast b hb
        omega
      · intro b hb
        rw [List.getLast?_concat] at hb
        cases hb
        exact ⟨Nat.le_refl _, Nat.le_refl _⟩
      · intro b hb
        cases hbeats : h.beats with
        | nil =>
            rw [hbeats] at hb
            cases hb
            exact (hinv.fresh hbeats).trans htick
        | cons b₀ rest =>
            rw [hbeats] at hb
            exact hinv.first b (hbeats ▸ hb)
      · intro hnil
        cases List.append_eq_nil_iff.1 hnil |>.2
      · rw [hpc] at hgenerated
        rw [List.length_append, hgenerated]
        rfl
  | generate raw now candle market hpc =>
      refine { hinv with generated := ?_ }
      rw [hpc] at hgenerated
      rw [hgenerated, List.length_append]
      rfl
  | push candle ring pc hpc _ _ _ _ hmove =>
      refine { hinv with generated := ?_ }
      rw [hpc] at hgenerated
      cases hmove <;> exact hgenerated
  | stop hpc | loop hpc | call candle hpc | count hpc | flush hpc | joinPoller hpc
  | dropWriter hpc =>
      refine { hinv with generated := ?_ }
      rw [hpc] at hgenerated
      exact hgenerated

theorem PaceInv.step (hsync : UntilSync h) (hinv : PaceInv interval clock h)
    {act : FeedAct F} (hstep : handlerStep interval h act = some h') :
    PaceInv interval clock h' := by
  obtain ⟨-, hmove⟩ | ⟨-, hpoller⟩ | ⟨-, ring, rfl, -⟩ := handlerStep_cases hsync hstep
  · exact hinv.main hmove
  · obtain ⟨-, hpc, hbeats, hclock, hnext, hgenerated, -⟩ := feedPollerStep_frame hpoller
    exact ⟨hbeats ▸ hinv.paced, by rw [hbeats, hclock, hnext]; exact hinv.last,
      by rw [hbeats]; exact hinv.first, by rw [hbeats, hnext]; exact hinv.fresh,
      by rw [hbeats, hgenerated, hpc]; exact hinv.generated⟩
  · exact { hinv with }

theorem intervalOf_pos (rateEnv : Nat) : 0 < intervalOf rateEnv := by
  unfold intervalOf rateOf
  exact Nat.div_pos (Nat.min_le_right ..) (by omega)

/-- The rate limit holds over every run, whatever the clocks do.  Between any two candles
lie as many intervals as candles, less a hundred that may be made up for after a stall;
counted from the start none is made up for. -/
theorem feed_rate_bounded (rateEnv : Nat) (slots : Fin c.size → Candle F) (clock : Nat)
    (acts : List (FeedAct F)) (h : Handler c F)
    (hrun : exec (handlerStep (intervalOf rateEnv)) (Handler.start slots clock) acts =
      some h) :
    0 < intervalOf rateEnv ∧
    h.beats.length = h.generated.length + h.pc.due ∧
    (∀ (i j : Nat) a b, i < j → h.beats[i]? = some a → h.beats[j]? = some b →
      a.time + (j - i) * intervalOf rateEnv ≤ b.time + 101 * intervalOf rateEnv) ∧
    ∀ (j : Nat) b, h.beats[j]? = some b → clock + j * intervalOf rateEnv ≤ b.time := by
  obtain ⟨-, hinv⟩ : HandlerInv h ∧ PaceInv (intervalOf rateEnv) clock h :=
    exec_invariant (P := fun h => HandlerInv h ∧ PaceInv (intervalOf rateEnv) clock h)
      (fun s a t hs hstep => ⟨hs.1.step hstep, hs.2.step hs.1.sync hstep⟩) hrun
      ⟨.start slots clock, .start slots⟩
  refine ⟨intervalOf_pos rateEnv, hinv.generated, ?_, ?_⟩
  · intro i j a b hij ha hb
    have hwindow := hinv.paced.window hij ha hb
    have hsplit : (j - i) * intervalOf rateEnv =
        (j - i - 1) * intervalOf rateEnv + intervalOf rateEnv := by
      rw [← Nat.succ_mul]
      congr 1
      omega
    omega
  · intro j b hb
    have hlt : 0 < h.beats.length := Nat.lt_of_le_of_lt (Nat.zero_le j)
      (List.getElem?_eq_some_iff.1 hb).1
    have hzero := List.getElem?_eq_getElem hlt
    have hfirst := hinv.first _ (by rw [List.head?_eq_getElem?]; exact hzero)
    have hticks := hinv.paced.since_first hzero hb
    omega

end Rate

/-- The second candle would be early, and the third comes after a
stall of two hundred ticks. -/
theorem feed_rate_bounded_stall :
    let c : Capacity := ⟨4, by decide⟩
    let once (elapsed : Nat) : List (FeedAct ℚ) :=
      List.replicate 9 (.main ⟨elapsed, 0, some 7, some 7⟩)
    ∃ h, exec (handlerStep (intervalOf 100000000))
        (Handler.start (c := c) (fun _ => flatCandle 0 0) 50)
        (once 0 ++ once 4 ++ once 2000) =
          some h ∧
      h.beats = [⟨50, 50, 50⟩, ⟨54, 60, 60⟩, ⟨2060, 2060, 2060⟩] ∧
      ∀ (j : Nat) b, h.beats[j]? = some b → 50 + j * 10 ≤ b.time := by
  intro c once
  obtain ⟨h, hrun, hh⟩ := exists_exec (handlerStep (intervalOf 100000000))
    (Handler.start (c := c) (fun _ => flatCandle 0 0) 50) (once 0 ++ once 4 ++ once 2000)
    (fun h => h.beats = [⟨50, 50, 50⟩, ⟨54, 60, 60⟩, ⟨2060, 2060, 2060⟩])
    (by decide +kernel)
  exact ⟨h, hrun, of_decide_eq_true hh,
    (feed_rate_bounded 100000000 _ 50 _ h hrun).2.2.2⟩

/-! ## Shutdown -/

/-- How many steps the poller takes to its exit once the flag is set. -/
def FeedPollerPc.rank : FeedPollerPc → Nat
  | .exited => 0
  | .check => 1
  | .publish => 2
  | .park => 3

section Shutdown

variable [SignedF64 F] {interval : Nat} {h h' : Handler c F}

theorem feedMove_frame (hmove : FeedMove interval h h') :
    h'.ring.cancel = h.ring.cancel ∧ h'.poller = h.poller := by
  cases hmove with
  | push candle ring pc hpc hring hcancel => exact ⟨hcancel, rfl⟩
  | _ => exact ⟨rfl, rfl⟩

/-- The flag stays set, and the poller does not come back. -/
theorem HandlerInv.stable (hinv : HandlerInv h) {act : FeedAct F}
    (hstep : handlerStep interval h act = some h') :
    (h.ring.cancel = true → h'.ring.cancel = true) ∧
      (h.poller = .exited → h'.poller = .exited) := by
  obtain ⟨-, hmove⟩ | ⟨-, hpoller⟩ | ⟨-, ring, rfl, ⟨a, ha, hring⟩ | rfl⟩ :=
    handlerStep_cases hinv.sync hstep
  · obtain ⟨hcancel, hpoller⟩ := feedMove_frame hmove
    exact ⟨hcancel.trans, hpoller.trans⟩
  · refine ⟨?_, ?_⟩
    · rw [(feedPollerStep_frame hpoller).1]
      exact id
    · intro hexited
      rw [feedPollerStep.eq_def, hexited] at hpoller
      cases hpoller
  · exact ⟨(step_byConsumer ha hring).2.2.trans, id⟩
  · exact ⟨fun _ => rfl, id⟩

variable (r : WeakRun (σ := Handler c F) (handlerStep interval) FeedAct.owner) {n : Nat}

end Shutdown

end Candlestore.Feed
