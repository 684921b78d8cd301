import Mathlib.Data.List.Nodup
import Mathlib.Tactic.Common

/-!
# Recency lists

A log of uses is a list, newest first.  `firsts` keeps the first occurrence of
every element, so on a log it lists what was used, the most recently used
first; `mostRecent n` is its beginning, the set a cache of `n` places holds
under the least-recently-used rule.  Using an element moves it to the front;
when it was not among the `n`, the last one drops out.
-/

namespace Candlestore.Lib

variable {α : Type} [DecidableEq α]

/-- The distinct elements of a list, in the order in which they are first met. -/
def firsts : List α → List α
  | [] => []
  | a :: l => a :: (firsts l).filter (· ≠ a)

/-- The `n` most recently used elements of a log, all of them if there are fewer. -/
def mostRecent (n : Nat) (log : List α) : List α := (firsts log).take n

theorem nodup_firsts (l : List α) : (firsts l).Nodup := by
  induction l with
  | nil => exact List.nodup_nil
  | cons a l ih =>
      rw [firsts, List.nodup_cons]
      exact ⟨by simp, ih.filter _⟩

theorem nodup_mostRecent (n : Nat) (log : List α) : (mostRecent n log).Nodup :=
  (nodup_firsts log).sublist (List.take_sublist n _)

theorem length_mostRecent_le (n : Nat) (log : List α) : (mostRecent n log).length ≤ n :=
  List.length_take_le n _

/-- What is met before the first `a` of `firsts l` is met before the first `a` of `l`. -/
theorem split_of_firsts {l p q : List α} {a : α} (h : firsts l = p ++ a :: q) :
    ∃ u v, l = u ++ a :: v ∧ a ∉ u ∧ ∀ x ∈ p, x ∈ u := by
  induction l generalizing p q with
  | nil => simp [firsts] at h
  | cons b l ih =>
      rw [firsts] at h
      cases p with
      | nil =>
          obtain ⟨rfl, _⟩ := List.cons.inj h
          exact ⟨[], l, rfl, List.not_mem_nil, fun _ hx => hx⟩
      | cons y p =>
          obtain ⟨rfl, hrest⟩ := List.cons.inj h
          -- the filter removed nothing that matters: `a` and `p` are its survivors
          obtain ⟨p', q', hl, hp, hq⟩ := List.filter_eq_append_iff.1 hrest
          obtain ⟨skip, q'', hq', hskip, hab, _⟩ := List.filter_eq_cons_iff.1 hq
          rw [hq', ← List.append_assoc] at hl
          obtain ⟨u, v, rfl, hau, hmem⟩ := ih hl
          refine ⟨b :: u, v, rfl, ?_, ?_⟩
          · simp only [List.mem_cons, not_or]
            exact ⟨by simpa using hab, hau⟩
          · intro x hx
            rcases List.mem_cons.1 hx with rfl | hx
            · exact List.mem_cons_self
            · rw [← hp] at hx
              exact List.mem_cons_of_mem _
                (hmem x (List.mem_append_left _ (List.mem_of_mem_filter hx)))

/-- The last of the most recent was last used before all the others were. -/
theorem split_of_mostRecent {n : Nat} {log newer : List α} {last : α}
    (h : mostRecent n log = newer ++ [last]) :
    ∃ u v, log = u ++ last :: v ∧ last ∉ u ∧ ∀ x ∈ newer, x ∈ u := by
  apply split_of_firsts (q := (firsts log).drop n)
  calc firsts log = mostRecent n log ++ (firsts log).drop n :=
    (List.take_append_drop n _).symm
    _ = newer ++ last :: (firsts log).drop
      n := by rw [h, List.append_assoc, List.singleton_append]

omit [DecidableEq α] in
/-- Nothing from beyond the first `n` places reaches them when at least as many are put
in front. -/
theorem take_append_filter_drop {n : Nat} {l x : List α} (keep : α → Bool)
    (h : (l.take n).length ≤ x.length) :
    (x ++ (l.drop n).filter keep).take n = x.take n := by
  rw [List.take_append]
  rcases Nat.le_total n l.length with hle | hge
  · rw [List.length_take, Nat.min_eq_left hle] at h
    rw [Nat.sub_eq_zero_of_le h, List.take_zero, List.append_nil]
  · rw [List.drop_eq_nil_of_le hge, List.filter_nil, List.take_nil, List.append_nil]

theorem firsts_cons_eq (n : Nat) (a : α) (log : List α) :
    firsts (a :: log) = a :: (mostRecent n log).filter (· ≠ a) ++
      ((firsts log).drop n).filter (· ≠ a) := by
  rw [firsts, mostRecent, List.cons_append, ← List.filter_append, List.take_append_drop]

/-- Using one of the most recent moves it to the front. -/
theorem mostRecent_cons_of_mem {n : Nat} {log p q : List α} {a : α}
    (h : mostRecent n log = p ++ a :: q) : mostRecent n (a :: log) = a :: (p ++ q) := by
  have hnodup := nodup_mostRecent n log
  have hlen := length_mostRecent_le n log
  have hothers : (mostRecent n log).filter (· ≠ a) = p ++ q := by
    rw [h, List.nodup_middle, List.nodup_cons] at hnodup
    rw [h, List.filter_append, List.filter_cons_of_neg (by simp), ← List.filter_append]
    apply List.filter_eq_self.2
    intro x hx
    simpa using ne_of_mem_of_not_mem hx hnodup.1
  have hcount : (mostRecent n log).length = (a :: (p ++ q)).length := by
    rw [h]
    simp [Nat.add_assoc]
  rw [mostRecent, firsts_cons_eq n, hothers,
    take_append_filter_drop _ (Nat.le_of_eq hcount)]
  exact List.take_of_length_le (hcount ▸ hlen)

/-- Using any other puts it in front of all but the last of a full list. -/
theorem mostRecent_cons_of_notMem {n : Nat} {log : List α} {a : α} (hn : 0 < n)
    (h : a ∉ mostRecent n log) :
    mostRecent n (a :: log) = a :: mostRecent (n - 1) log := by
  have hothers : (mostRecent n log).filter (· ≠ a) = mostRecent n log := by
    apply List.filter_eq_self.2
    intro x hx
    simpa using ne_of_mem_of_not_mem hx h
  obtain ⟨m, rfl⟩ := Nat.exists_eq_add_of_lt hn
  rw [mostRecent, firsts_cons_eq, hothers, take_append_filter_drop _ (Nat.le_succ _)]
  simp [mostRecent, List.take_take]

theorem mostRecent_pred_of_lt {n : Nat} {log : List α}
    (h : (mostRecent n log).length < n) : mostRecent (n - 1) log = mostRecent n log := by
  rw [mostRecent, List.length_take] at h
  rw [mostRecent, mostRecent, List.take_of_length_le (by omega),
    List.take_of_length_le (by omega)]

theorem mostRecent_eq_concat {n : Nat} {log : List α} (hn : 0 < n)
    (h : n ≤ (mostRecent n log).length) :
    ∃ last, mostRecent n log = mostRecent (n - 1) log ++ [last] := by
  rw [mostRecent, List.length_take] at h
  have hlt : n - 1 < (firsts log).length := by omega
  refine ⟨(firsts log)[n - 1], ?_⟩
  rw [mostRecent, mostRecent, List.take_append_getElem hlt, Nat.sub_add_cancel hn]

end Candlestore.Lib
