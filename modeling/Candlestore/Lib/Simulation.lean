import Mathlib.Algebra.Ring.Nat
import Candlestore.Lib.System

/-!
# Simulations between transition systems

A fine-grained system simulates into a coarser one over the same actions if each
of its steps, taken from related states, either leaves the coarse state related
or is answered by the coarse step of the same action.  A run of the fine system is
then matched by the coarse run of those of its actions that were answered, in the
order in which they were taken.

With a rank that every unanswered step spends and an answered one earns back, the
cost of the fine run is bounded by that of the coarse one.  Costs and ranks are
families, so that one coarse run bounds the cost of every party.
-/

namespace Candlestore.Lib

variable {σ α ι κ : Type} {fstep : σ → ι → Option σ} {cstep : α → ι → Option α}
  {R : σ → α → Prop} {cost : κ → ι → Nat} {rank : κ → σ → Nat} {k : Nat}

/-- Each fine step is no coarse step and pays with rank, or one coarse step that may add
`k` for whoever takes it. -/
def SimulatesWithin (fstep : σ → ι → Option σ) (cstep : α → ι → Option α)
    (R : σ → α → Prop) (cost : κ → ι → Nat) (rank : κ → σ → Nat) (k : Nat) : Prop :=
  ∀ s a s' x, R s x → fstep s a = some s' →
    (R s' x ∧ ∀ i, cost i a + rank i s' ≤ rank i s) ∨
      ∃ x', cstep x a = some x' ∧ R s' x' ∧
      ∀ i, cost i a + rank i s' ≤ rank i s + k * cost i a

theorem SimulatesWithin.exec (h : SimulatesWithin fstep cstep R cost rank k)
    {s s' : σ} {x : α} {as : List ι} (hR : R s x) (hrun : exec fstep s as = some s') :
    ∃ bs x', bs.Sublist as ∧ Lib.exec cstep x bs = some x' ∧ R s' x' ∧
      ∀ i, (as.map (cost i)).sum + rank i s' ≤ rank i s + k * (bs.map (cost i)).sum := by
  induction as generalizing s x with
  | nil =>
      cases hrun
      exact ⟨[], x, .slnil, rfl, hR, by simp⟩
  | cons a as ih =>
      obtain ⟨u, hu, hrest⟩ := exec_cons_eq_some.1 hrun
      rcases h s a u x hR hu with ⟨hRu, hspent⟩ | ⟨y, hy, hRy, hspent⟩
      · obtain ⟨bs, x', hsub, hbs, hR', hcost⟩ := ih hRu hrest
        refine ⟨bs, x', hsub.cons a, hbs, hR', ?_⟩
        intro i
        have := hspent i
        have := hcost i
        rw [List.map_cons, List.sum_cons]
        omega
      · obtain ⟨bs, x', hsub, hbs, hR', hcost⟩ := ih hRy hrest
        refine ⟨a :: bs, x', hsub.cons_cons a, exec_cons_eq_some.2 ⟨y, hy, hbs⟩, hR', ?_⟩
        intro i
        have := hspent i
        have := hcost i
        rw [List.map_cons, List.sum_cons, List.map_cons, List.sum_cons, Nat.mul_add]
        omega

end Candlestore.Lib
