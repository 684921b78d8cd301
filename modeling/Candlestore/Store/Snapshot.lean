import Candlestore.Store.Wakeup

/-!
# A snapshot that races signals

`snapshot` reports `appends_total` as the version less the signals: it loads the
version, loads `signals` in a later step and subtracts with saturation.
`signal_waiters` bumps the two in the other order, `signals` first.  This file
adds the snapshot to the store with its callers, its signals and its consumer.

The order of the two bumps keeps the total from counting a signal as an append.
It does not bound what is missing: every signal that was counted before the
second load, and had not bumped the version at the first, hides one append
(`snapshot_within_one_iff`).
-/

namespace Candlestore.Concurrent

open Lib

variable {τ F : Type}

/-- What the first load of a snapshot sees.  `published` are the appends and
`raised` the signals that had bumped the version by then. -/
structure VersionLoad where
  version : Nat
  published : Nat
  raised : Nat
  deriving DecidableEq

/-- A snapshot, between the load of the version and that of `signals`. -/
inductive SnapPc where
  | idle
  | loaded (first : VersionLoad)
  | done (published appendsTotal : Nat)
  deriving DecidableEq

/-- The store with its callers, signals and consumer, and a thread that takes
snapshots. -/
structure Metered (τ F : Type) where
  watched : Watched τ F
  snap : SnapPc

/-- Nothing has happened yet. -/
def Metered.start : Metered τ F := ⟨Watched.start, .idle⟩

/-- The appends that have bumped the version. -/
def Watched.published (w : Watched τ F) : Nat := (accepters w.world.mem.hist).length

/-- A step of the watched store, or a load of the snapshot. -/
inductive MeterAct (τ : Type) where
  | watch (a : WatchAct τ)
  /-- `self.version.value.load(Relaxed)` of a new snapshot. -/
  | loadVersion
  /-- `.saturating_sub(self.signals.load(Relaxed))` of the snapshot under way. -/
  | loadSignals

section Steps

variable [DecidableEq τ] [F64 F] (cfg : Config) (order : τ → OsOrder F)
  (req : τ → Request F)

/-- One such step. -/
def meterStep (m : Metered τ F) : MeterAct τ → Option (Metered τ F)
  | .watch a => (watchStep cfg order req m.watched a).map fun w =>
      { m with watched := w }
  | .loadVersion =>
      match m.snap with
      | .loaded _ => none
      | .idle | .done _ _ =>
          some { m with
            snap := .loaded ⟨m.watched.version, m.watched.published, m.watched.raised⟩ }
  | .loadSignals =>
      match m.snap with
      | .loaded first =>
          some { m with
            snap := .done first.published (first.version - m.watched.signals) }
      | .idle | .done _ _ => none

end Steps

section Runs

variable [DecidableEq τ] [F64 F] {cfg : Config} {order : τ → OsOrder F}
  {req : τ → Request F} {w w' : Watched τ F} {m m' : Metered τ F}

/-- The version counts the published appends and the signals that have been
raised, each of which was counted before. -/
structure Counted (w : Watched τ F) : Prop where
  version : w.version = w.published + w.raised
  raised_le : w.raised ≤ w.signals

omit [DecidableEq τ] [F64 F] in
theorem Counted.start : Counted (Watched.start : Watched τ F) := ⟨rfl, Nat.le_refl 0⟩

theorem Counted.step (h : Counted w) (hinv : WatchInv cfg req w) {a : WatchAct τ}
    (hstep : watchStep cfg order req w a = some w') :
    Counted w' ∧ w.signals ≤ w'.signals := by
  have hversion := h.version
  have hraised := h.raised_le
  rcases watchStep_cases hstep with ⟨t, world, -, hturn, rfl⟩ | ⟨-, rfl⟩ |
    ⟨-, hlt, rfl⟩ | ⟨-, -, -, rfl⟩ | ⟨-, -, -, rfl⟩ | ⟨-, -, rfl⟩
  · obtain ⟨mem, p, hnext, rfl⟩ := turn_eq_some.1 hturn
    obtain ⟨evs, heff⟩ :=
      (sound_next hinv.world.mem (hinv.world.pcs t.thread) hnext).effect
    have hsplit : accepters (w.world.mem.hist ++ evs) =
        accepters w.world.mem.hist ++ accepters evs := List.flatMap_append
    refine ⟨⟨?_, hraised⟩, Nat.le_refl _⟩
    change w.world.mem.counters.version + w.raised =
      (accepters w.world.mem.hist).length + w.raised at hversion
    show mem.counters.version + w.raised = (accepters mem.hist).length + w.raised
    rw [heff.version, heff.hist, hsplit, List.length_append]
    omega
  · exact ⟨⟨hversion, Nat.le_succ_of_le hraised⟩, Nat.le_succ _⟩
  · exact ⟨⟨congrArg (· + 1) hversion, hlt⟩, Nat.le_refl _⟩
  · exact ⟨⟨hversion, hraised⟩, Nat.le_refl _⟩
  · exact ⟨⟨hversion, hraised⟩, Nat.le_refl _⟩
  · exact ⟨⟨hversion, hraised⟩, Nat.le_refl _⟩

/-- What the first load of a snapshot saw adds up, and the signals raised by then
are still counted. -/
structure MeterInv (cfg : Config) (req : τ → Request F) (m : Metered τ F) : Prop where
  watch : WatchInv cfg req m.watched
  counted : Counted m.watched
  version_eq : ∀ first, m.snap = .loaded first →
    first.version = first.published + first.raised
  raised_le : ∀ first, m.snap = .loaded first → first.raised ≤ m.watched.signals

omit [F64 F] in
theorem MeterInv.start : MeterInv cfg req (Metered.start : Metered τ F) where
  watch := .start
  counted := .start
  version_eq := fun _ h => by cases h
  raised_le := fun _ h => by cases h

/-- Inversion of a step. -/
theorem meterStep_cases {a : MeterAct τ}
    (hstep : meterStep cfg order req m a = some m') :
    (∃ act w, a = .watch act ∧ watchStep cfg order req m.watched act = some w ∧
      m' = { m with watched := w }) ∨
    (a = .loadVersion ∧ m' = { m with
      snap := .loaded ⟨m.watched.version, m.watched.published, m.watched.raised⟩ }) ∨
    ∃ first, a = .loadSignals ∧ m.snap = .loaded first ∧ m' = { m with
      snap := .done first.published (first.version - m.watched.signals) } := by
  cases a with
  | watch act =>
      obtain ⟨w, hw, rfl⟩ := Option.map_eq_some_iff.1 hstep
      exact .inl ⟨act, w, rfl, hw, rfl⟩
  | loadVersion =>
      cases hsnap : m.snap with
      | idle | done =>
          simp only [meterStep, hsnap, Option.some.injEq] at hstep
          exact .inr (.inl ⟨rfl, hstep.symm⟩)
      | loaded first =>
          simp only [meterStep, hsnap] at hstep
          cases hstep
  | loadSignals =>
      cases hsnap : m.snap with
      | idle | done =>
          simp only [meterStep, hsnap] at hstep
          cases hstep
      | loaded first =>
          simp only [meterStep, hsnap, Option.some.injEq] at hstep
          exact .inr (.inr ⟨first, rfl, rfl, hstep.symm⟩)

theorem MeterInv.step (h : MeterInv cfg req m) {a : MeterAct τ}
    (hstep : meterStep cfg order req m a = some m') : MeterInv cfg req m' := by
  rcases meterStep_cases hstep with ⟨act, w, -, hw, rfl⟩ | ⟨-, rfl⟩ | ⟨first, -, -, rfl⟩
  · obtain ⟨hcounted, hmono⟩ := h.counted.step h.watch hw
    exact ⟨h.watch.step hw, hcounted, h.version_eq, fun first hfirst =>
      Nat.le_trans (h.raised_le first hfirst) hmono⟩
  · refine ⟨h.watch, h.counted, ?_, ?_⟩
    · intro first hfirst
      cases hfirst
      exact h.counted.version
    · intro first hfirst
      cases hfirst
      exact h.counted.raised_le
  · exact ⟨h.watch, h.counted, (fun _ hfirst => by cases hfirst),
      fun _ hfirst => by cases hfirst⟩

theorem MeterInv.of_exec {acts : List (MeterAct τ)}
    (hrun : exec (meterStep cfg order req) Metered.start acts = some m) :
    MeterInv cfg req m :=
  exec_invariant (fun _ _ _ h hstep => h.step hstep) hrun .start

/-- Two appends are published, the version is loaded, and two signals pass before
the other load: the snapshot reports no append at all. -/
theorem snapshot_hides_two_appends :
    let cfg : Config := ⟨1, 1, true, fun _ => false⟩
    let req : Fin 2 → Request ℚ := fun t => .append ['A'] (flatCandle t.val 1)
    let acts : List (MeterAct (Fin 2)) :=
      List.replicate 5 (.watch (.call ⟨0, ⟨['A'], .ok⟩⟩)) ++
        List.replicate 5 (.watch (.call ⟨1, ⟨['A'], .ok⟩⟩)) ++
        [.loadVersion, .watch .signal, .watch .raise, .watch .signal, .watch .raise,
          .loadSignals]
    ∃ m, exec (meterStep cfg (fun _ => stableOrder) req) Metered.start acts = some m ∧
      m.snap = .done 2 0 := by
  intro cfg req acts
  obtain ⟨m, hrun, hm⟩ :=
    exists_exec (meterStep cfg (fun _ => stableOrder) req) Metered.start acts
      (fun m => m.snap = .done 2 0) (by decide +kernel)
  exact ⟨m, hrun, of_decide_eq_true hm⟩

/-- The append counter of a racing snapshot never counts a signal.  In every
interleaving the total is at most the number of appends that were published at
the load of the version, and it misses at most one of them exactly if there was
at most one, or if all signals counted by the load of `signals` but one had
bumped the version by the load of the version. -/
theorem snapshot_within_one_iff {acts : List (MeterAct τ)}
    (hrun : exec (meterStep cfg order req) Metered.start acts = some m)
    (hstep : meterStep cfg order req m .loadSignals = some m') :
    ∃ first total, m.snap = .loaded first ∧ m'.snap = .done first.published total ∧
      total ≤ first.published ∧
      (first.published ≤ total + 1 ↔
        first.published ≤ 1 ∨ m.watched.signals ≤ first.raised + 1) := by
  have hinv := MeterInv.of_exec hrun
  rcases meterStep_cases hstep with ⟨_, _, hact, _⟩ | ⟨hact, _⟩ | ⟨first, -, hfirst, rfl⟩
  · cases hact
  · cases hact
  · have hversion := hinv.version_eq first hfirst
    have hraised := hinv.raised_le first hfirst
    refine ⟨first, _, hfirst, rfl, ?_, ?_⟩
    · rw [hversion]
      omega
    · rw [hversion]
      omega

/-- One signal between the two loads hides one of two appends. -/
theorem snapshot_within_one_iff_one_signal :
    let cfg : Config := ⟨1, 1, true, fun _ => false⟩
    let req : Fin 2 → Request ℚ := fun t => .append ['A'] (flatCandle t.val 1)
    let acts : List (MeterAct (Fin 2)) :=
      List.replicate 5 (.watch (.call ⟨0, ⟨['A'], .ok⟩⟩)) ++
        List.replicate 5 (.watch (.call ⟨1, ⟨['A'], .ok⟩⟩)) ++
        [.loadVersion, .watch .signal]
    ∃ m m' total, exec (meterStep cfg (fun _ => stableOrder) req) Metered.start acts =
      some m ∧
      meterStep cfg (fun _ => stableOrder) req m .loadSignals = some m' ∧
      m'.snap = .done 2 total ∧ total ≤ 2 ∧ 2 ≤ total + 1 := by
  intro cfg req acts
  obtain ⟨m, hrun, hm⟩ :=
    exists_exec (meterStep cfg (fun _ => stableOrder) req) Metered.start acts
      (fun m => m.snap = .loaded ⟨2, 2, 0⟩ ∧ m.watched.signals = 1) (by decide +kernel)
  obtain ⟨hloaded, hsignals⟩ := of_decide_eq_true hm
  have hstep : meterStep cfg (fun _ => stableOrder) req m .loadSignals =
      some { m with snap := .done 2 (2 - m.watched.signals) } := by
    simp only [meterStep, hloaded]
  obtain ⟨first, total, hfirst, hdone, hle, hiff⟩ := snapshot_within_one_iff hrun hstep
  rw [hloaded] at hfirst
  cases hfirst
  exact ⟨m, _, total, hrun, hstep, hdone, hle, hiff.2 (Or.inr (by rw [hsignals]))⟩

end Runs

end Candlestore.Concurrent
