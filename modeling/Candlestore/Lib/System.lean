import Mathlib.Data.List.Induction
import Mathlib.Tactic.Common

/-!
# Transition systems given by a step function

A system is a partial step function: `step s a` is the state after action `a`,
or `none` where `a` is not enabled.  Interleavings of several parties are runs
over one action type, so whatever holds of every run holds of every
interleaving.
-/

namespace Candlestore.Lib

variable {σ ι : Type}

/-- The state after the actions `as`, if each of them is enabled in turn. -/
def exec (step : σ → ι → Option σ) : σ → List ι → Option σ
  | s, [] => some s
  | s, a :: as => (step s a).bind fun t => exec step t as

variable {step : σ → ι → Option σ}

theorem exec_cons_eq_some {s u : σ} {a : ι} {as : List ι} :
    exec step s (a :: as) = some u ↔ ∃ t, step s a = some t ∧ exec step t as = some u :=
  Option.bind_eq_some_iff

theorem exec_append_eq_some {s u : σ} {as bs : List ι} :
    exec step s (as ++ bs) = some u ↔
      ∃ t, exec step s as = some t ∧ exec step t bs = some u := by
  induction as generalizing s with
  | nil => simp [exec]
  | cons a as ih =>
      simp only [List.cons_append, exec_cons_eq_some, ih]
      constructor
      · rintro ⟨t, hst, v, htv, hvu⟩
        exact ⟨v, ⟨t, hst, htv⟩, hvu⟩
      · rintro ⟨v, ⟨t, hst, htv⟩, hvu⟩
        exact ⟨t, hst, v, htv, hvu⟩

/-- A run passes through a state after each of its actions. -/
theorem exec_take {s u : σ} {as : List ι} (hrun : exec step s as = some u) (n : Nat) :
    ∃ t, exec step s (as.take n) = some t ∧ exec step t (as.drop n) = some u := by
  rw [← List.take_append_drop n as] at hrun
  exact exec_append_eq_some.1 hrun

/-- A run found by evaluation, with a decidable fact about its last state. -/
theorem exists_exec (step : σ → ι → Option σ) (s : σ) (as : List ι) (p : σ → Bool)
    (h : (exec step s as).any p = true) : ∃ t, exec step s as = some t ∧ p t = true :=
  (Option.any_eq_true p _).1 h

/-- What holds at the start and is kept by every step holds after every run. -/
theorem exec_invariant {P : σ → Prop} (hstep : ∀ s a t, P s → step s a = some t → P t)
    {s t : σ} {as : List ι} (hrun : exec step s as = some t) (hs : P s) : P t := by
  induction as generalizing s with
  | nil =>
      cases hrun
      exact hs
  | cons a as ih =>
      obtain ⟨u, hu, hut⟩ := exec_cons_eq_some.1 hrun
      exact ih hut (hstep s a u hs hu)

/-- Induction along a run, for properties of the actions taken so far. -/
theorem exec_induction {s : σ} {P : List ι → σ → Prop} (hnil : P [] s)
    (hsnoc : ∀ as a t u, exec step s as = some t → P as t → step t a = some u →
      P (as ++ [a]) u)
    {as : List ι} {t : σ} (hrun : exec step s as = some t) : P as t := by
  induction as using List.reverseRecOn generalizing t with
  | nil =>
      cases hrun
      exact hnil
  | append_singleton as a ih =>
      obtain ⟨u, hu, hlast⟩ := exec_append_eq_some.1 hrun
      obtain ⟨v, hv, hvt⟩ := exec_cons_eq_some.1 hlast
      cases hvt
      exact hsnoc as a u t hu (ih hu) hv

/-- Each action is one that `allowed` lets be taken in the state it is taken in. -/
def meets (step : σ → ι → Option σ) (allowed : σ → ι → Bool) : σ → List ι → Bool
  | _, [] => true
  | s, a :: as => allowed s a && (step s a).all fun t => meets step allowed t as

/-- The invariant rule for the runs that meet a condition. -/
theorem exec_invariant_of_meets {allowed : σ → ι → Bool} {P : σ → Prop}
    (hstep : ∀ s a t, allowed s a = true → P s → step s a = some t → P t)
    {s t : σ} {as : List ι} (hmeets : meets step allowed s as = true)
    (hrun : exec step s as = some t) (hs : P s) : P t := by
  induction as generalizing s with
  | nil =>
      cases hrun
      exact hs
  | cons a as ih =>
      obtain ⟨u, hu, hut⟩ := exec_cons_eq_some.1 hrun
      rw [meets, hu, Bool.and_eq_true, Option.all_some] at hmeets
      exact ih hmeets.2 hut (hstep s a u hmeets.1 hs hu)

end Candlestore.Lib
