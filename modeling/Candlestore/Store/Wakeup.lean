import Candlestore.Store.Conservation

/-!
# Waiting for the version to change

A consumer spins in `wait_for_change` until the version differs from the one it
has seen, and then reads the store.  Appends push first and bump the version in
a later step, and `signal_waiters` bumps the same counter without an append.
This file adds such a consumer and any number of signalling callers to the
concurrent store and proves that no wake-up is lost: while the consumer waits and
the version is the one last seen, every append that has bumped it was in the store
when the consumer last read it.

The loop is `last_seen = wait_for_change(last_seen)` and then a read, so between the
two the version last seen counts appends that are not read yet.
-/

namespace Candlestore.Concurrent

open Lib

variable {τ F : Type}

/-- The store with its callers, `signal_waiters` and one consumer.  `raised` are
the version bumps by `signal_waiters`, each after its increment of `signals`.
With `waiting` the consumer is inside `wait_for_change`, otherwise the read is next.
`latest` is the memory as of the consumer's latest read. -/
structure Watched (τ F : Type) where
  world : World (Mem τ F) (Pc F) τ
  signals : Nat
  raised : Nat
  lastSeen : Nat
  waiting : Bool
  latest : Option (Mem τ F)

namespace Watched

/-- No call has begun and the consumer has seen nothing. -/
def start : Watched τ F := ⟨Concurrent.start, 0, 0, 0, true, none⟩

/-- The counter that appends and signals share. -/
def version (w : Watched τ F) : Nat := w.world.mem.counters.version + w.raised

end Watched

/-- What the callers, the signalling threads and the consumer can do. -/
inductive WatchAct (τ : Type) where
  /-- A step of an append or a range query. -/
  | call (a : Turn τ Choice)
  /-- `signal_waiters` counts the signal. -/
  | signal
  /-- `signal_waiters` bumps the version. -/
  | raise
  /-- One load of `wait_for_change`, which returns if the version has changed; the
  consumer then assigns it to `last_seen`. -/
  | poll
  /-- The consumer reads the store and waits again. -/
  | read

section Steps

variable [DecidableEq τ] [F64 F] (cfg : Config) (order : τ → OsOrder F)
  (req : τ → Request F)

/-- One step of the store's callers, of `signal_waiters` or of the consumer. -/
def watchStep (w : Watched τ F) : WatchAct τ → Option (Watched τ F)
  | .call a => (turn (next cfg order req) w.world a).map fun world =>
      { w with world := world }
  | .signal => some { w with signals := w.signals + 1 }
  | .raise =>
      if w.raised < w.signals then some { w with raised := w.raised + 1 } else none
  | .poll =>
      if !w.waiting then none
      else if w.version ≠ w.lastSeen then
        some { w with lastSeen := w.version, waiting := false }
      else some w
  | .read =>
      if w.waiting || w.world.mem.lock.isSome then none
      else some { w with waiting := true, latest := some w.world.mem }

variable {cfg order req}

/-- Inversion of a step. -/
theorem watchStep_cases {w w' : Watched τ F} {act : WatchAct τ}
    (hstep : watchStep cfg order req w act = some w') :
    (∃ a world, act = .call a ∧ turn (next cfg order req) w.world a = some world ∧
      w' = { w with world := world }) ∨
    (act = .signal ∧ w' = { w with signals := w.signals + 1 }) ∨
    (act = .raise ∧ w.raised < w.signals ∧ w' = { w with raised := w.raised + 1 }) ∨
    (act = .poll ∧ w.waiting = true ∧ w.version ≠ w.lastSeen ∧
      w' = { w with lastSeen := w.version, waiting := false }) ∨
    (act = .poll ∧ w.waiting = true ∧ w.version = w.lastSeen ∧ w' = w) ∨
    (act = .read ∧ w.waiting = false ∧
      w' = { w with waiting := true, latest := some w.world.mem }) := by
  cases act with
  | call a =>
      obtain ⟨world, hturn, rfl⟩ := Option.map_eq_some_iff.1 hstep
      exact .inl ⟨a, world, rfl, hturn, rfl⟩
  | signal =>
      cases hstep
      exact .inr (.inl ⟨rfl, rfl⟩)
  | raise =>
      simp only [watchStep, Option.ite_none_right_eq_some, Option.some.injEq] at hstep
      exact .inr (.inr (.inl ⟨rfl, hstep.1, hstep.2.symm⟩))
  | poll =>
      simp only [watchStep, Option.ite_none_left_eq_some, Bool.not_eq_true',
        Bool.not_eq_false]
        at hstep
      obtain ⟨hwaiting, hstep⟩ := hstep
      split at hstep
      · next hne =>
        exact .inr (.inr
          (.inr (.inl ⟨rfl, hwaiting, hne, (Option.some.inj hstep).symm⟩)))
      · next heq =>
        exact .inr (.inr (.inr (.inr (.inl
          ⟨rfl, hwaiting, not_not.1 heq, (Option.some.inj hstep).symm⟩))))
  | read =>
      simp only [watchStep, Option.ite_none_left_eq_some, Bool.or_eq_true, not_or,
        Bool.not_eq_true, Option.some.injEq] at hstep
      exact .inr (.inr (.inr (.inr (.inr ⟨rfl, hstep.1.1, hstep.2.symm⟩))))

end Steps

section Landing

variable [DecidableEq τ]

/-- The candle of the call is in the ring of its symbol, or was there and has
been overwritten or evicted. -/
def Landed (m : Mem τ F) (t : τ) (symbol : Symbol) (candle : Candle F) : Prop :=
  ∃ e, pushesBy t m.hist = [(e, symbol, candle)] ∧
    ((m.map.lookup symbol = some e ∧
        ∃ cell, m.heap[e]? = some cell ∧ candle ∈ cell.buf.toVec) ∨
      candle ∈ lostTo e m.hist ∨
      ∃ u snapshot, .evicted u e symbol snapshot ∈ m.hist ∧ candle ∈ snapshot)

/-- Every append that has bumped the version has landed. -/
def AllLanded (req : τ → Request F) (m : Mem τ F) : Prop :=
  ∀ t symbol candle, req t = .append symbol candle → t ∈ accepters m.hist →
    Landed m t symbol candle

variable {cfg : Config} {req : τ → Request F} {m : Mem τ F} {t : τ} {p : Pc F}

/-- A call bumps the version only after its push. -/
theorem CallOk.pushed_of_accepted (h : CallOk cfg t m req p) {symbol : Symbol}
    {candle : Candle F} (hreq : req t = .append symbol candle)
    (hacc : t ∈ accepters m.hist) :
    ∃ e, Concurrent.pushesBy t m.hist = [(e, symbol, candle)] := by
  rw [CallOk, hreq] at h
  rw [← List.count_pos_iff, count_accepters] at hacc
  have hempty : ∀ {P : Prop}, returnsBy t m.hist = [] → P := by
    intro P hnil
    rw [hnil] at hacc
    exact absurd hacc (Nat.lt_irrefl 0)
  cases p with
  | appended result =>
      cases result with
      | ok => exact h.1.pushes
      | error err =>
          rw [h.2.2] at hacc
          exact absurd hacc (Nat.lt_irrefl 0)
  | publish => exact h.1.pushes
  | idle | lookup | insert | panicked => exact hempty h.returns
  | touch | push | evict | spill | writing => exact hempty h.1.returns
  | install fresh victim => cases victim <;> exact hempty h.1.returns
  | abort => exact hempty h.1.choose_spec.returns
  | rangeHot | rangeCold | ranged => exact h.elim

/-- A pushed candle is still in its ring unless it was overwritten, and the ring
is mapped unless it was evicted. -/
theorem MemInv.landed (h : MemInv cfg m) {e : EntryId} {symbol : Symbol}
    {candle : Candle F} (hpush : pushesBy t m.hist = [(e, symbol, candle)]) :
    Landed m t symbol candle := by
  refine ⟨e, hpush, ?_⟩
  obtain ⟨lost, hmem⟩ := (mem_pushesBy t m.hist).1 (hpush ▸ List.mem_singleton_self _)
  obtain ⟨cell, hcell, hsymbol⟩ := h.ring.symbols t e symbol candle lost hmem
  have hin : candle ∈ pushesTo e m.hist := List.mem_flatMap.2 ⟨_, hmem, by simp⟩
  rw [h.ring.rings e cell hcell, List.mem_append] at hin
  rcases hin with hlost | hring
  · exact Or.inr (Or.inl hlost)
  · by_cases hmap : m.map.lookup symbol = some e
    · exact Or.inl ⟨hmap, cell, hcell, hring⟩
    · obtain ⟨u, hevicted⟩ := h.ring.evicted e cell hcell (by rwa [hsymbol])
      rw [hsymbol] at hevicted
      exact Or.inr (Or.inr ⟨u, _, hevicted, hring⟩)

theorem WorldInv.allLanded {w : World (Mem τ F) (Pc F) τ} (h : WorldInv cfg req w) :
    AllLanded req w.mem := by
  intro t symbol candle hreq hacc
  obtain ⟨e, hpush⟩ := (h.pcs t).pushed_of_accepted hreq hacc
  exact h.mem.landed hpush

end Landing

section Runs

variable [DecidableEq τ] [F64 F] {cfg : Config} {order : τ → OsOrder F}
  {req : τ → Request F} {w w' : Watched τ F}

/-- The consumer never claims to have seen a later version than there is, and
while it waits and the version is the one it has seen, its latest read came after
every append that bumped it. -/
structure WatchInv (cfg : Config) (req : τ → Request F) (w : Watched τ F) : Prop where
  world : WorldInv cfg req w.world
  seen : w.lastSeen ≤ w.version
  latest : ∀ m, w.latest = some m → AllLanded req m
  covered : w.waiting = true → w.version = w.lastSeen → ∀ t ∈ accepters w.world.mem.hist,
    ∃ m, w.latest = some m ∧ t ∈ accepters m.hist

omit [F64 F] in
theorem WatchInv.start : WatchInv cfg req (Watched.start : Watched τ F) where
  world := WorldInv.start
  seen := Nat.le_refl 0
  latest := fun _ h => by cases h
  covered := fun _ _ _ h => by cases h

/-- A call that bumps the version makes it differ from the one last seen; one
that does not adds no append to be covered. -/
theorem WatchInv.call (h : WatchInv cfg req w) {a : Turn τ Choice}
    {world : World (Mem τ F) (Pc F) τ}
    (hturn : turn (next cfg order req) w.world a = some world) :
    WatchInv cfg req { w with world := world } := by
  have hworld := h.world.step hturn
  obtain ⟨m, p, hnext, rfl⟩ := turn_eq_some.1 hturn
  obtain ⟨evs, heff⟩ := (sound_next h.world.mem (h.world.pcs a.thread) hnext).effect
  have hversion : Watched.version
      { w with world := ⟨m, Function.update w.world.pc a.thread p⟩ } =
      w.version + (accepters evs).length := by
    show m.counters.version + w.raised = w.world.mem.counters.version + w.raised + _
    rw [heff.version]
    omega
  have hseen := h.seen
  refine ⟨hworld, ?_, h.latest, ?_⟩
  · rw [hversion]
    exact Nat.le_add_right_of_le hseen
  · intro hwaiting heq t hacc
    rw [hversion] at heq
    change w.version + (accepters evs).length = w.lastSeen at heq
    have hquiet : accepters evs = [] := List.length_eq_zero_iff.1 (by omega)
    have hsplit : accepters (w.world.mem.hist ++ evs) =
        accepters w.world.mem.hist ++ accepters evs := List.flatMap_append
    rw [heff.hist, hsplit, hquiet, List.append_nil] at hacc
    exact h.covered hwaiting (by omega) t hacc

theorem WatchInv.step (h : WatchInv cfg req w) {act : WatchAct τ}
    (hstep : watchStep cfg order req w act = some w') : WatchInv cfg req w' := by
  rcases watchStep_cases hstep with ⟨a, world, -, hturn, rfl⟩ | ⟨-, rfl⟩ | ⟨-, -, rfl⟩ |
      ⟨-, -, -, rfl⟩ | ⟨-, -, -, rfl⟩ | ⟨-, -, rfl⟩
  · exact h.call hturn
  · exact ⟨h.world, h.seen, h.latest, h.covered⟩
  · -- a raised signal makes the version differ from the one last seen
    have hversion : Watched.version { w with raised := w.raised + 1 } = w.version + 1 :=
      rfl
    refine ⟨h.world, Nat.le_succ_of_le h.seen, h.latest, ?_⟩
    intro _ heq
    have hseen := h.seen
    rw [hversion] at heq
    change w.version + 1 = w.lastSeen at heq
    omega
  · refine ⟨h.world, Nat.le_refl _, h.latest, ?_⟩
    intro hwaiting
    cases hwaiting
  · exact h
  · refine ⟨h.world, h.seen, ?_, ?_⟩
    · intro m hm
      cases hm
      exact h.world.allLanded
    · -- what has bumped the version by now is in the memory just read
      intro _ _ t hacc
      exact ⟨w.world.mem, rfl, hacc⟩

theorem WatchInv.of_exec {acts : List (WatchAct τ)}
    (hrun : exec (watchStep cfg order req) Watched.start acts = some w) :
    WatchInv cfg req w :=
  exec_invariant (fun _ _ _ h hstep => h.step hstep) hrun .start

/-- No wake-up is lost.  In every interleaving an append that has bumped the
version has its candle in the store, or had it there before it was overwritten
or evicted; and whenever the consumer is inside `wait_for_change` and the version
is the one it has last seen, so that its next load keeps it waiting, this was so
already when it last read the store. -/
theorem no_lost_wakeup {acts : List (WatchAct τ)}
    (hrun : exec (watchStep cfg order req) Watched.start acts = some w) :
    AllLanded req w.world.mem ∧
    (w.waiting = true → w.version = w.lastSeen →
      watchStep cfg order req w .poll = some w ∧
      ∀ t symbol candle, req t = .append symbol candle → t ∈ accepters w.world.mem.hist →
        ∃ m, w.latest = some m ∧ Landed m t symbol candle) := by
  have h := WatchInv.of_exec hrun
  refine ⟨h.world.allLanded, ?_⟩
  intro hwaiting hseen
  refine ⟨?_, ?_⟩
  · simp [watchStep, hwaiting, hseen]
  · intro t symbol candle hreq hacc
    obtain ⟨m, hm, hin⟩ := h.covered hwaiting hseen t hacc
    exact ⟨m, hm, h.latest m hm t symbol candle hreq hin⟩

/-- The consumer is woken by an append and reads it, and is then woken by a
signal and reads again. -/
theorem no_lost_wakeup_append_and_signal :
    let cfg : Config := ⟨1, 1, true, fun _ => false⟩
    let req : Fin 1 → Request ℚ := fun _ => .append ['A'] (flatCandle 0 1)
    let acts : List (WatchAct (Fin 1)) :=
      List.replicate 5 (.call ⟨0, ⟨['A'], .ok⟩⟩) ++
        [.poll, .read, .poll, .signal, .raise, .poll, .read]
    ∃ w, exec (watchStep cfg (fun _ => stableOrder) req) Watched.start acts = some w ∧
      w.version = 2 ∧ w.lastSeen = 2 ∧
      ∃ m, w.latest = some m ∧ Landed m 0 ['A'] (flatCandle 0 1) := by
  intro cfg req acts
  obtain ⟨w, hrun, hw⟩ :=
    exists_exec (watchStep cfg (fun _ => stableOrder) req) Watched.start acts
      (fun w => w.waiting = true ∧ w.version = 2 ∧ w.lastSeen = 2 ∧
        0 ∈ accepters w.world.mem.hist) (by decide +kernel)
  obtain ⟨hwaiting, hversion, hseen, hacc⟩ := of_decide_eq_true hw
  have hpoll := (no_lost_wakeup hrun).2 hwaiting (hversion.trans hseen.symm)
  exact ⟨w, hrun, hversion, hseen, hpoll.2 0 ['A'] _ rfl hacc⟩

/-- One append and one load: `wait_for_change` has returned and the version is the
one last seen, but the consumer has not read the store yet. -/
theorem seen_before_read :
    let cfg : Config := ⟨1, 1, true, fun _ => false⟩
    let req : Fin 1 → Request ℚ := fun _ => .append ['A'] (flatCandle 0 1)
    let acts : List (WatchAct (Fin 1)) :=
      List.replicate 5 (.call ⟨0, ⟨['A'], .ok⟩⟩) ++ [.poll]
    ∃ w, exec (watchStep cfg (fun _ => stableOrder) req) Watched.start acts = some w ∧
      w.version = w.lastSeen ∧ 0 ∈ accepters w.world.mem.hist ∧
      ¬∃ m, w.latest = some m ∧ Landed m 0 ['A'] (flatCandle 0 1) := by
  intro cfg req acts
  obtain ⟨w, hrun, hw⟩ :=
    exists_exec (watchStep cfg (fun _ => stableOrder) req) Watched.start acts
      (fun w => w.version = w.lastSeen ∧ 0 ∈ accepters w.world.mem.hist ∧
        w.latest.isNone) (by decide +kernel)
  obtain ⟨hseen, hacc, hnone⟩ := of_decide_eq_true hw
  refine ⟨w, hrun, hseen, hacc, ?_⟩
  rintro ⟨m, hm, _⟩
  rw [hm] at hnone
  cases hnone

end Runs

end Candlestore.Concurrent
