import Mathlib.Order.Nat
import Mathlib.Tactic.Push
import Candlestore.Lib.System

/-!
# Weakly fair runs

The actions of a system belong to parties, or to nobody.  An endless run is weakly
fair if no party that can move from some time on is left out for ever; what belongs
to nobody may happen or not.

Liveness is proved with a helpful party: while `P` holds the party can move, its
own moves spend rank, and the moves of the others neither end `P` nor give rank
back.  Then `P` leads to `Q`.  A measure that always falls again leads to the end.
-/

namespace Candlestore.Lib

variable {σ ι κ : Type} {step : σ → ι → Option σ} {owner : ι → Option κ}

/-- An endless run, which may pause. -/
structure WeakRun (step : σ → ι → Option σ) (owner : ι → Option κ) where
  state : Nat → σ
  act : Nat → Option ι
  next : ∀ n, exec step (state n) (act n).toList = some (state (n + 1))
  fair : ∀ i n, (∀ k, n ≤ k → ∃ a, owner a = some i ∧ (step (state k) a).isSome) →
    ∃ k a, n ≤ k ∧ act k = some a ∧ owner a = some i

namespace WeakRun

variable (r : WeakRun step owner)

/-- A time passes with one step or with none. -/
theorem step_or_pause (n : Nat) : r.act n = none ∧ r.state (n + 1) = r.state n ∨
    ∃ a, r.act n = some a ∧ step (r.state n) a = some (r.state (n + 1)) := by
  have hnext := r.next n
  cases hact : r.act n with
  | none =>
      rw [hact] at hnext
      exact .inl ⟨rfl, (Option.some.inj hnext).symm⟩
  | some a =>
      rw [hact] at hnext
      obtain ⟨t, ht, heq⟩ := exec_cons_eq_some.1 hnext
      cases heq
      exact .inr ⟨a, rfl, ht⟩

/-- What every step keeps holds from the time on at which it holds first. -/
theorem stable {P : σ → Prop} (hstep : ∀ s a t, P s → step s a = some t → P t)
    {n k : Nat} (hnk : n ≤ k) (hn : P (r.state n)) : P (r.state k) := by
  induction hnk with
  | refl => exact hn
  | step _ ih => exact exec_invariant hstep (r.next _) ih

/-- The helpful party brings `Q` about. -/
theorem leadsTo (i : κ) {P Q : σ → Prop} (rank : σ → Nat)
    (hstep : ∀ s a t, P s → step s a = some t →
      Q t ∨ P t ∧ rank t ≤ rank s ∧ (owner a = some i → rank t < rank s))
    (henabled : ∀ s, P s → ∃ a, owner a = some i ∧ (step s a).isSome)
    {n : Nat} (hn : P (r.state n)) : ∃ k, n ≤ k ∧ Q (r.state k) := by
  induction hrank : rank (r.state n) using Nat.strongRecOn generalizing n with
  | ind b ih =>
      by_contra hnever
      push Not at hnever
      have hstays : ∀ d, P (r.state (n + d)) ∧ rank (r.state (n + d)) ≤ b := by
        intro d
        induction d with
        | zero => exact ⟨hn, hrank.le⟩
        | succ d ihd =>
            rcases r.step_or_pause (n + d) with ⟨-, heq⟩ | ⟨a, -, ha⟩
            · rw [← Nat.add_assoc, heq]
              exact ihd
            · rcases hstep _ _ _ ihd.1 ha with hQ | ⟨hP, hle, -⟩
              · exact absurd hQ (hnever _ (by omega))
              · exact ⟨hP, hle.trans ihd.2⟩
      obtain ⟨k, a, hk, hact, hown⟩ := r.fair i n (fun k hk => by
        obtain ⟨d, rfl⟩ := Nat.exists_eq_add_of_le hk
        exact henabled _ (hstays d).1)
      obtain ⟨d, rfl⟩ := Nat.exists_eq_add_of_le hk
      rcases r.step_or_pause (n + d) with ⟨hnone, -⟩ | ⟨a', hact', ha'⟩
      · rw [hact] at hnone
        cases hnone
      · rw [hact] at hact'
        cases hact'
        rcases hstep _ _ _ (hstays d).1 ha' with hQ | ⟨hP, -, hlt⟩
        · exact hnever _ (by omega) hQ
        · have hless := (hlt hown).trans_le (hstays d).2
          obtain ⟨j, hj, hQ⟩ := ih _ hless hP rfl
          exact hnever j (by omega) hQ

/-- If the measure falls again whenever the run is not done, the run gets done. -/
theorem eventually_of_falls (done : σ → Prop) (measure : σ → Nat)
    (hfalls : ∀ n, ¬done (r.state n) →
      ∃ k, n ≤ k ∧ measure (r.state k) < measure (r.state n))
    (n : Nat) : ∃ k, n ≤ k ∧ done (r.state k) := by
  induction hm : measure (r.state n) using Nat.strongRecOn generalizing n with
  | ind b ih =>
      by_cases hdone : done (r.state n)
      · exact ⟨n, Nat.le_refl n, hdone⟩
      · obtain ⟨k, hk, hlt⟩ := hfalls n hdone
        obtain ⟨j, hj, hj'⟩ := ih _ (hm ▸ hlt) k rfl
        exact ⟨j, hk.trans hj, hj'⟩

end WeakRun

/-- A finite run that ends where no party can move, seen as a weakly fair one. -/
def WeakRun.ofExec (owner : ι → Option κ) {s t : σ} {as : List ι}
    (hrun : exec step s as = some t)
    (hend : ∀ a i, owner a = some i → step t a = none) : WeakRun step owner where
  state n := (exec step s (as.take n)).getD s
  act n := as[n]?
  next := by
    intro n
    obtain ⟨u, hu, -⟩ := exec_take hrun n
    obtain ⟨u', hu', -⟩ := exec_take hrun (n + 1)
    rw [hu, hu', Option.getD_some, Option.getD_some]
    rw [List.take_add_one, exec_append_eq_some] at hu'
    obtain ⟨x, hx, hlast⟩ := hu'
    rw [hu] at hx
    cases hx
    exact hlast
  fair := by
    intro i n hall
    exfalso
    obtain ⟨a, hown, ha⟩ := hall (max n as.length) (Nat.le_max_left ..)
    rw [List.take_of_length_le (Nat.le_max_right ..), hrun, Option.getD_some,
      hend a i hown] at ha
    cases ha

end Candlestore.Lib
