import Mathlib.Data.Set.Finite.Lattice
import Mathlib.Logic.Function.Basic
import Mathlib.Order.Bounds.Basic
import Mathlib.Tactic.Push
import Candlestore.Lib.System

/-!
# Threads over a shared memory

A thread is a local state that takes atomic steps on a shared memory; a step
may depend on a choice of the environment.  A run interleaves the steps of any
number of threads.

The invariant rule is the one of Owicki and Gries: an invariant of the memory
and an assertion about each local state, where every step re-establishes the
assertion of its own thread and leaves those of the others alone.  For progress
there is a rule for memories with one lock: threads that only ever take finitely
many steps, and wait for nothing but the lock, all finish under a fair
scheduler.
-/

namespace Candlestore.Lib

/-- A shared memory and the local state of every thread. -/
structure World (μ π τ : Type) where
  mem : μ
  pc : τ → π

/-- One step of a run: who moves, and what the environment decides. -/
structure Turn (τ χ : Type) where
  thread : τ
  choice : χ

variable {μ π τ χ : Type} [DecidableEq τ]

/-- The step function of the whole system, from that of one thread. -/
def turn (next : τ → χ → μ → π → Option (μ × π)) (w : World μ π τ) (a : Turn τ χ) :
    Option (World μ π τ) :=
  (next a.thread a.choice w.mem (w.pc a.thread)).map fun r =>
    ⟨r.1, Function.update w.pc a.thread r.2⟩

variable {next : τ → χ → μ → π → Option (μ × π)}

theorem turn_eq_some {w w' : World μ π τ} {a : Turn τ χ} :
    turn next w a = some w' ↔
      ∃ m p, next a.thread a.choice w.mem (w.pc a.thread) = some (m, p) ∧
        w' = ⟨m, Function.update w.pc a.thread p⟩ := by
  rw [turn, Option.map_eq_some_iff]
  constructor
  · rintro ⟨⟨m, p⟩, h, rfl⟩
    exact ⟨m, p, h, rfl⟩
  · rintro ⟨m, p, h, rfl⟩
    exact ⟨(m, p), h, rfl⟩

/-- One thread on its own. -/
def solo (next : τ → χ → μ → π → Option (μ × π)) (t : τ) (s : μ × π) (c : χ) :
    Option (μ × π) :=
  next t c s.1 s.2

/-- What a thread does on its own is a run of the whole system. -/
theorem exec_solo {t : τ} {s s' : μ × π} {cs : List χ}
    (hrun : exec (solo next t) s cs = some s') (w : World μ π τ) (hmem : w.mem = s.1)
    (hpc : w.pc t = s.2) :
    exec (turn next) w (cs.map (Turn.mk t)) =
      some ⟨s'.1, Function.update w.pc t s'.2⟩ := by
  induction cs generalizing s w with
  | nil =>
      cases hrun
      rw [← hmem, ← hpc, Function.update_eq_self]
      rfl
  | cons c cs ih =>
      obtain ⟨u, hu, hrest⟩ := exec_cons_eq_some.1 hrun
      have hturn : turn next w ⟨t, c⟩ = some ⟨u.1, Function.update w.pc t u.2⟩ := by
        rw [turn_eq_some]
        refine ⟨u.1, u.2, ?_, rfl⟩
        rw [hmem, hpc]
        exact hu
      have hih := ih hrest ⟨u.1, Function.update w.pc t u.2⟩ rfl
        (Function.update_self ..)
      rw [Function.update_idem] at hih
      exact exec_cons_eq_some.2 ⟨_, hturn, hih⟩

/-- An invariant of the memory with an assertion for each thread. -/
structure Annotated (inv : μ → Prop) (assertion : τ → μ → π → Prop) (w : World μ π τ) :
    Prop where
  mem : inv w.mem
  pcs : ∀ t, assertion t w.mem (w.pc t)

section Invariant

variable {inv : μ → Prop} {assertion : τ → μ → π → Prop}

theorem Annotated.turn
    (own : ∀ t c m p m' p', inv m → assertion t m p → next t c m p = some (m', p') →
      inv m' ∧ assertion t m' p')
    (others : ∀ t c m p m' p' u q, u ≠ t → inv m → assertion t m p →
      next t c m p = some (m', p') → assertion u m q → assertion u m' q)
    {w w' : World μ π τ} {a : Turn τ χ} (h : Annotated inv assertion w)
    (hstep : turn next w a = some w') : Annotated inv assertion w' := by
  obtain ⟨m, p, hnext, rfl⟩ := turn_eq_some.1 hstep
  obtain ⟨hmem, hpc⟩ := own _ _ _ _ _ _ h.mem (h.pcs a.thread) hnext
  refine ⟨hmem, ?_⟩
  intro u
  by_cases hu : u = a.thread
  · subst hu
    simpa using hpc
  · simpa only [Function.update_of_ne hu] using
      others _ _ _ _ _ _ u _ hu h.mem (h.pcs a.thread) hnext (h.pcs u)

end Invariant

/-- What the threads hold stays apart if a thread takes only what no other one holds. -/
theorem exclusive_update {κ : Type} {held : π → Option κ} {pc : τ → π}
    (h : ∀ t u k, held (pc t) = some k → held (pc u) = some k → t = u) {a : τ} {p : π}
    (hnew : ∀ u k, u ≠ a → held p = some k → held (pc u) ≠ some k) (t u : τ) (k : κ)
    (ht : held (Function.update pc a p t) = some k)
    (hu : held (Function.update pc a p u) = some k) : t = u := by
  by_cases hta : t = a <;> by_cases hua : u = a
  · rw [hta, hua]
  · subst hta
    rw [Function.update_self] at ht
    rw [Function.update_of_ne hua] at hu
    exact absurd hu (hnew u k hua ht)
  · subst hua
    rw [Function.update_self] at hu
    rw [Function.update_of_ne hta] at ht
    exact absurd ht (hnew t k hta hu)
  · rw [Function.update_of_ne hta] at ht
    rw [Function.update_of_ne hua] at hu
    exact h t u k ht hu

/-! ## How many steps a thread takes -/

/-- Steps of one thread in a run. -/
def stepsOf (t : τ) (as : List (Turn τ χ)) : Nat := as.countP fun a => a.thread = t

/-- If every step of a thread spends rank, and only what it earns as credit can
give rank back, its steps are bounded by its rank and its credit. -/
theorem stepsOf_add_rank_le (rank : π → Nat) (credit : τ → μ → Nat)
    (own : ∀ t c m p m' p', next t c m p = some (m', p') →
      rank p' + 1 + credit t m ≤ rank p + credit t m')
    (others : ∀ t c m p m' p' u, u ≠ t → next t c m p = some (m', p') →
      credit u m ≤ credit u m')
    (t : τ) {w w' : World μ π τ} {as : List (Turn τ χ)}
    (hrun : exec (turn next) w as = some w') :
    stepsOf t as + rank (w'.pc t) + credit t w.mem ≤
      rank (w.pc t) + credit t w'.mem := by
  induction as generalizing w with
  | nil =>
      cases hrun
      simp [stepsOf]
  | cons a as ih =>
      obtain ⟨v, hv, hrest⟩ := exec_cons_eq_some.1 hrun
      obtain ⟨m, p, hnext, rfl⟩ := turn_eq_some.1 hv
      have hlater := ih hrest
      rw [stepsOf, List.countP_cons]
      rw [stepsOf] at hlater
      by_cases ht : a.thread = t
      · subst ht
        have hown := own _ _ _ _ _ _ hnext
        simp only [Function.update_self] at hlater
        simp only [decide_true, if_true]
        omega
      · have hother := others _ _ _ _ _ _ t (Ne.symm ht) hnext
        simp only [Function.update_of_ne (Ne.symm ht)] at hlater
        simp only [ht, decide_false, Bool.false_eq_true, if_false]
        omega

/-! ## Fair runs -/

/-- An endless run, which may pause: a thread that can move again and again
does move again and again. -/
structure FairRun (next : τ → χ → μ → π → Option (μ × π)) where
  state : Nat → World μ π τ
  act : Nat → Option (Turn τ χ)
  step : ∀ n, match act n with
    | some a => turn next (state n) a = some (state (n + 1))
    | none => state (n + 1) = state n
  fair : ∀ t, (∀ n, ∃ k, n ≤ k ∧ ∃ c, (turn next (state k) ⟨t, c⟩).isSome) →
    ∀ n, ∃ k, n ≤ k ∧ ∃ a, act k = some a ∧ a.thread = t

namespace FairRun

variable (r : FairRun next)

/-- The turns taken before time `n`. -/
def acts (n : Nat) : List (Turn τ χ) := (List.range n).filterMap r.act

theorem acts_succ (n : Nat) : r.acts (n + 1) = r.acts n ++ (r.act n).toList := by
  rw [acts, List.range_succ, List.filterMap_append, acts]
  cases h : r.act n <;> simp [h]

theorem exec_acts (n : Nat) :
    exec (turn next) (r.state 0) (r.acts n) = some (r.state n) := by
  induction n with
  | zero => rfl
  | succ n ih =>
      have hstep := r.step n
      rw [acts_succ, exec_append_eq_some]
      refine ⟨r.state n, ih, ?_⟩
      cases hact : r.act n with
      | none =>
          rw [hact] at hstep
          simp only [Option.toList_none, exec, hstep]
      | some a =>
          rw [hact] at hstep
          simp only [Option.toList_some, exec, hstep, Option.bind_some]

theorem stepsOf_acts_mono (t : τ) {n k : Nat} (hnk : n ≤ k) :
    stepsOf t (r.acts n) ≤ stepsOf t (r.acts k) := by
  induction hnk with
  | refl => exact Nat.le_refl _
  | step _ ih =>
      refine Nat.le_trans ih ?_
      rw [acts_succ, stepsOf, stepsOf, List.countP_append]
      exact Nat.le_add_right _ _

/-- A thread that takes finitely many steps stops moving at some time. -/
theorem exists_stopped (t : τ) (bound : Nat)
    (hbound : ∀ n, stepsOf t (r.acts n) ≤ bound) :
    ∃ n, ∀ k, n ≤ k → ∀ a, r.act k = some a → a.thread ≠ t := by
  by_contra hnever
  push Not at hnever
  have hgrow : ∀ b, ∃ n, b ≤ stepsOf t (r.acts n) := by
    intro b
    induction b with
    | zero => exact ⟨0, Nat.zero_le _⟩
    | succ b ih =>
        obtain ⟨n, hn⟩ := ih
        obtain ⟨k, hk, a, hact, ha⟩ := hnever n
        have hmono := r.stepsOf_acts_mono t hk
        refine ⟨k + 1, ?_⟩
        have hone : stepsOf t (r.acts (k + 1)) = stepsOf t (r.acts k) + 1 := by
          rw [acts_succ, hact, stepsOf, stepsOf, List.countP_append]
          simp [ha]
        omega
  obtain ⟨n, hn⟩ := hgrow (bound + 1)
  have := hbound n
  omega

/-- Threads that take finitely many steps each, and that can always move except
while another thread which can move holds the lock, all finish. -/
theorem exists_finished (lock : μ → Option τ) (finished : π → Prop)
    (hbound : ∀ t, ∃ bound, ∀ n, stepsOf t (r.acts n) ≤ bound)
    (progress : ∀ n t, ¬finished ((r.state n).pc t) →
      (∃ c, (turn next (r.state n) ⟨t, c⟩).isSome) ∨
        ∃ u, lock (r.state n).mem = some u ∧
          ∃ c, (turn next (r.state n) ⟨u, c⟩).isSome)
    (handover : ∀ n u, lock (r.state n).mem = some u →
      lock (r.state (n + 1)).mem = some u ∨ lock (r.state (n + 1)).mem = none)
    (t : τ) : ∃ n, finished ((r.state n).pc t) := by
  by_contra hnever
  push Not at hnever
  -- A thread that moves only finitely often is not enabled for ever.
  have hdisabled :
      ∀ u, ∃ n, ∀ k, n ≤ k → ∀ c, (turn next (r.state k) ⟨u, c⟩).isSome = false := by
    intro u
    obtain ⟨bound, hb⟩ := hbound u
    obtain ⟨n, hstop⟩ := r.exists_stopped u bound hb
    by_contra hcon
    push Not at hcon
    obtain ⟨k, hk, a, hact, ha⟩ := r.fair u (fun j => by
      obtain ⟨k, hk, c, hc⟩ := hcon j
      exact ⟨k, hk, c, eq_true_of_ne_false hc⟩) n
    exact hstop k hk a hact ha
  obtain ⟨n, hn⟩ := hdisabled t
  have hheld : ∀ k, n ≤ k → ∃ u, lock (r.state k).mem = some u ∧
      ∃ c, (turn next (r.state k) ⟨u, c⟩).isSome := by
    intro k hk
    rcases progress k t (hnever k) with ⟨c, hc⟩ | h
    · rw [hn k hk c] at hc
      cases hc
    · exact h
  obtain ⟨u, hu, _⟩ := hheld n (Nat.le_refl n)
  have hsame : ∀ d, lock (r.state (n + d)).mem = some u := by
    intro d
    induction d with
    | zero => exact hu
    | succ d ih =>
        rcases handover (n + d) u ih with h | h
        · exact h
        · obtain ⟨v, hv, _⟩ := hheld (n + d + 1) (by omega)
          rw [h] at hv
          cases hv
  obtain ⟨k, hk⟩ := hdisabled u
  obtain ⟨v, hv, c, hc⟩ := hheld (n + k) (by omega)
  rw [hsame k] at hv
  cases hv
  rw [hk (n + k) (by omega) c] at hc
  cases hc

/-- Finitely many threads that take finitely many steps each all finish, if some
thread can move while one of them is not finished. -/
theorem exists_finished_of_finite [Finite τ] (finished : π → Prop)
    (hbound : ∀ t, ∃ bound, ∀ n, stepsOf t (r.acts n) ≤ bound)
    (progress : ∀ n t, ¬finished ((r.state n).pc t) →
      ∃ u c, (turn next (r.state n) ⟨u, c⟩).isSome)
    (t : τ) : ∃ n, finished ((r.state n).pc t) := by
  have hstops : ∀ u, ∃ n, ∀ k, n ≤ k → ∀ a, r.act k = some a → a.thread ≠ u := by
    intro u
    obtain ⟨bound, hb⟩ := hbound u
    exact r.exists_stopped u bound hb
  choose stop hstop using hstops
  obtain ⟨last, hlast⟩ := (Set.finite_range stop).bddAbove
  have hquiet : ∀ k, last ≤ k → r.act k = none := by
    intro k hk
    cases hact : r.act k with
    | none => rfl
    | some a =>
        have hle : stop a.thread ≤ last := hlast ⟨a.thread, rfl⟩
        exact absurd rfl (hstop a.thread k (hle.trans hk) a hact)
  have hsame : ∀ d, r.state (last + d) = r.state last := by
    intro d
    induction d with
    | zero => rfl
    | succ d ih =>
        have hstep := r.step (last + d)
        rw [hquiet (last + d) (Nat.le_add_right ..)] at hstep
        exact hstep.trans ih
  by_contra hnever
  push Not at hnever
  obtain ⟨u, c, hc⟩ := progress last t (hnever last)
  obtain ⟨k, hk, a, hact, -⟩ := r.fair u (fun n => ⟨last + n, Nat.le_add_left .., c, by
    rw [hsame]
    exact hc⟩) last
  rw [hquiet k hk] at hact
  cases hact

end FairRun

/-- A finite run after which no thread can move, seen as a fair run. -/
def FairRun.ofExec {w v : World μ π τ} {as : List (Turn τ χ)}
    (hrun : exec (turn next) w as = some v) (hend : ∀ a, turn next v a = none) :
    FairRun next where
  state n := (exec (turn next) w (as.take n)).getD w
  act n := as[n]?
  step := by
    intro n
    obtain ⟨u, hu, -⟩ := exec_take hrun n
    obtain ⟨u', hu', -⟩ := exec_take hrun (n + 1)
    cases hact : as[n]? with
    | none =>
        have hlen : as.length ≤ n := List.getElem?_eq_none_iff.1 hact
        simp only [List.take_of_length_le hlen,
          List.take_of_length_le (Nat.le_succ_of_le hlen)]
    | some a =>
        simp only [hu, hu', Option.getD_some]
        rw [List.take_add_one, hact, Option.toList_some, exec_append_eq_some] at hu'
        obtain ⟨x, hx, hlast⟩ := hu'
        rw [hu] at hx
        cases hx
        obtain ⟨y, hy, hyu⟩ := exec_cons_eq_some.1 hlast
        cases hyu
        exact hy
  fair := by
    intro t hinf
    obtain ⟨k, hk, c, hc⟩ := hinf as.length
    rw [List.take_of_length_le hk, hrun, Option.getD_some, hend ⟨t, c⟩] at hc
    cases hc

/-- The rest of the finite run leads on to its end. -/
theorem FairRun.exec_ofExec {w v : World μ π τ} {as : List (Turn τ χ)}
    (hrun : exec (turn next) w as = some v) (hend : ∀ a, turn next v a = none)
    (n : Nat) :
    exec (turn next) ((FairRun.ofExec hrun hend).state n) (as.drop n) = some v := by
  obtain ⟨u, hu, hrest⟩ := exec_take hrun n
  have hstate : (FairRun.ofExec hrun hend).state n = u := by
    show (exec (turn next) w (as.take n)).getD w = u
    rw [hu, Option.getD_some]
  rw [hstate]
  exact hrest

end Candlestore.Lib
