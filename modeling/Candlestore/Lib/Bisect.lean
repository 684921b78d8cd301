import Mathlib.Data.Nat.Basic

/-!
# Partition-point search

`bisect p lo hi` is the usual half-open binary search: it narrows `[lo, hi)`
by testing the midpoint and keeps the upper half when the test succeeds.  On a
predicate that holds exactly on an initial segment it finds the end of that
segment; on an arbitrary predicate it still returns an index of `[lo, hi]`,
and a larger predicate never yields a smaller index.
-/

namespace Candlestore.Lib

/-- The search loop.  `fuel` bounds the number of halvings. -/
def bisectLoop (p : Nat → Bool) : Nat → Nat → Nat → Nat
  | 0, lo, _ => lo
  | fuel + 1, lo, hi =>
      if lo < hi then
        let mid := lo + (hi - lo) / 2
        if p mid then bisectLoop p fuel (mid + 1) hi
        else bisectLoop p fuel lo mid
      else lo

/-- `while lo < hi` from `[lo, hi)`: the width of the interval is fuel enough,
since every iteration shrinks it. -/
def bisect (p : Nat → Bool) (lo hi : Nat) : Nat := bisectLoop p (hi - lo) lo hi

theorem bisectLoop_mem (p : Nat → Bool) (fuel : Nat) :
    ∀ lo hi, lo ≤ hi → hi - lo ≤ fuel →
      lo ≤ bisectLoop p fuel lo hi ∧ bisectLoop p fuel lo hi ≤ hi := by
  induction fuel with
  | zero =>
      intro lo hi hle _
      exact ⟨Nat.le_refl _, hle⟩
  | succ fuel ih =>
      intro lo hi hle hfuel
      simp only [bisectLoop]
      by_cases hlt : lo < hi
      · rw [if_pos hlt]
        split
        · have h := ih (lo + (hi - lo) / 2 + 1) hi (by omega) (by omega)
          omega
        · have h := ih lo (lo + (hi - lo) / 2) (by omega) (by omega)
          omega
      · rw [if_neg hlt]
        exact ⟨Nat.le_refl _, hle⟩

theorem bisect_le (p : Nat → Bool) (n : Nat) : bisect p 0 n ≤ n :=
  (bisectLoop_mem p _ 0 n (Nat.zero_le n) (Nat.le_refl _)).2

/-- With a predicate that is downward closed on `[0, n)` the loop invariant is
"everything below `lo` passes, everything from `hi` on fails". -/
theorem bisectLoop_spec (p : Nat → Bool) (n fuel : Nat)
    (hmono : ∀ i j, i ≤ j → j < n → p j = true → p i = true) :
    ∀ lo hi, lo ≤ hi → hi ≤ n → hi - lo ≤ fuel →
      (∀ i, i < lo → p i = true) → (∀ i, hi ≤ i → i < n → p i = false) →
      (∀ i, i < bisectLoop p fuel lo hi → p i = true) ∧
        (∀ i, bisectLoop p fuel lo hi ≤ i → i < n → p i = false) := by
  induction fuel with
  | zero =>
      intro lo hi hle _ hfuel hlow hhigh
      have heq : lo = hi := by omega
      subst heq
      exact ⟨hlow, hhigh⟩
  | succ fuel ih =>
      intro lo hi hle hn hfuel hlow hhigh
      simp only [bisectLoop]
      by_cases hlt : lo < hi
      · rw [if_pos hlt]
        have hmid : lo + (hi - lo) / 2 < n := by omega
        split
        · rename_i hp
          refine ih _ hi (by omega) hn (by omega) ?_ hhigh
          intro i hi'
          exact hmono i _ (by omega) hmid hp
        · rename_i hp
          refine ih lo _ (by omega) (by omega) (by omega) hlow ?_
          intro i hle' hin
          cases hpi : p i with
          | false => rfl
          | true => exact absurd (hmono _ i hle' hin hpi) hp
      · rw [if_neg hlt]
        have heq : lo = hi := by omega
        subst heq
        exact ⟨hlow, hhigh⟩

/-- On a predicate that holds on an initial segment of `[0, n)`, the search
returns the length of that segment. -/
theorem bisect_spec (p : Nat → Bool) (n : Nat)
    (hmono : ∀ i j, i ≤ j → j < n → p j = true → p i = true) :
    (∀ i, i < bisect p 0 n → p i = true) ∧
      (∀ i, bisect p 0 n ≤ i → i < n → p i = false) := by
  refine bisectLoop_spec p n _ hmono 0 n (Nat.zero_le n) (Nat.le_refl n)
    (Nat.le_refl _) ?_ ?_
  · intro i hi
    exact absurd hi (Nat.not_lt_zero i)
  · intro i hle hlt
    omega

/-- A test that always succeeds sends the search to the end. -/
theorem bisect_eq_top {p : Nat → Bool} {n : Nat} (h : ∀ i < n, p i = true) :
    bisect p 0 n = n := by
  have hspec := bisect_spec p n (fun i j hij hj _ => h i (Nat.lt_of_le_of_lt hij hj))
  have hle := bisect_le p n
  by_contra hne
  have hlt : bisect p 0 n < n := by omega
  have hlast := hspec.2 _ (Nat.le_refl _) hlt
  rw [h _ hlt] at hlast
  cases hlast

/-- A test that always fails leaves it at the start. -/
theorem bisect_eq_bot {p : Nat → Bool} {n : Nat} (h : ∀ i < n, p i = false) :
    bisect p 0 n = 0 := by
  have hspec := bisect_spec p n (fun i j _ hj hp => by cases (h j hj).symm.trans hp)
  have hle := bisect_le p n
  by_contra hne
  have hfirst := hspec.1 0 (by omega)
  rw [h 0 (by omega)] at hfirst
  cases hfirst

/-- Two searches over the same interval move together until the first midpoint
on which they disagree, and from then on they are separated by it. -/
theorem bisectLoop_mono (p q : Nat → Bool) (hpq : ∀ i, p i = true → q i = true)
    (fuel : Nat) : ∀ lo hi, lo ≤ hi → hi - lo ≤ fuel →
      bisectLoop p fuel lo hi ≤ bisectLoop q fuel lo hi := by
  induction fuel with
  | zero =>
      intro lo hi _ _
      exact Nat.le_refl _
  | succ fuel ih =>
      intro lo hi hle hfuel
      simp only [bisectLoop]
      by_cases hlt : lo < hi
      · simp only [if_pos hlt]
        cases hp : p (lo + (hi - lo) / 2) with
        | true =>
            simp only [hpq _ hp, if_true]
            exact ih _ hi (by omega) (by omega)
        | false =>
            cases hq : q (lo + (hi - lo) / 2) with
            | true =>
                have h₁ := bisectLoop_mem p fuel lo (lo + (hi - lo) / 2)
                  (by omega) (by omega)
                have h₂ := bisectLoop_mem q fuel (lo + (hi - lo) / 2 + 1) hi
                  (by omega) (by omega)
                simp only [Bool.false_eq_true, if_false, if_true]
                omega
            | false =>
                simp only [Bool.false_eq_true, if_false]
                exact ih lo _ (by omega) (by omega)
      · simp only [if_neg hlt, Nat.le_refl]

theorem bisect_mono (p q : Nat → Bool) (hpq : ∀ i, p i = true → q i = true)
    (n : Nat) : bisect p 0 n ≤ bisect q 0 n :=
  bisectLoop_mono p q hpq _ 0 n (Nat.zero_le n) (Nat.le_refl _)

/-- The search loop with a test that may have no answer. -/
def tryBisectLoop (p : Nat → Option Bool) : Nat → Nat → Nat → Option Nat
  | 0, lo, _ => some lo
  | fuel + 1, lo, hi =>
      if lo < hi then
        let mid := lo + (hi - lo) / 2
        (p mid).bind fun passed =>
          if passed then tryBisectLoop p fuel (mid + 1) hi
          else tryBisectLoop p fuel lo mid
      else some lo

/-- `bisect` with a test that may fail. -/
def tryBisect (p : Nat → Option Bool) (lo hi : Nat) : Option Nat :=
  tryBisectLoop p (hi - lo) lo hi

/-- Every midpoint lies in the interval, so a test with an answer there is
enough. -/
theorem tryBisectLoop_eq {p : Nat → Option Bool} {q : Nat → Bool} {n : Nat}
    (h : ∀ i < n, p i = some (q i)) (fuel : Nat) :
    ∀ lo hi, hi ≤ n → tryBisectLoop p fuel lo hi = some (bisectLoop q fuel lo hi) := by
  induction fuel with
  | zero =>
      intro lo hi _
      rfl
  | succ fuel ih =>
      intro lo hi hhi
      simp only [tryBisectLoop, bisectLoop]
      by_cases hlt : lo < hi
      · rw [if_pos hlt, if_pos hlt, h _ (by omega), Option.bind_some]
        split
        · exact ih _ hi hhi
        · exact ih lo _ (by omega)
      · rw [if_neg hlt, if_neg hlt]

theorem tryBisect_eq {p : Nat → Option Bool} {q : Nat → Bool} {n : Nat}
    (h : ∀ i < n, p i = some (q i)) : tryBisect p 0 n = some (bisect q 0 n) :=
  tryBisectLoop_eq h _ 0 n (Nat.le_refl n)

/-- The elements that pass a test, when these are the ones from index `lo` up to `up`. -/
theorem filter_eq_slice {α : Type} (l : List α) (p : α → Bool) {lo up : Nat}
    (hle : lo ≤ up) (hup : up ≤ l.length)
    (h : ∀ i (hi : i < l.length), p l[i] = true ↔ lo ≤ i ∧ i < up) :
    l.filter p = (l.take up).drop lo := by
  have hbelow : ((l.take up).take lo).filter p = [] := by
    rw [List.filter_eq_nil_iff, List.take_take, Nat.min_eq_left hle]
    intro x hx
    obtain ⟨i, hi, rfl⟩ := List.mem_take_iff_getElem.1 hx
    rw [h i (by omega)]
    omega
  have habove : (l.drop up).filter p = [] := by
    rw [List.filter_eq_nil_iff]
    intro x hx
    obtain ⟨i, hi, rfl⟩ := List.mem_drop_iff_getElem.1 hx
    rw [h (up + i) (by omega)]
    omega
  have hwithin : ((l.take up).drop lo).filter p = (l.take up).drop lo := by
    rw [List.filter_eq_self]
    intro x hx
    obtain ⟨i, hi, rfl⟩ := List.mem_drop_iff_getElem.1 hx
    rw [List.length_take] at hi
    rw [List.getElem_take, h (lo + i) (by omega)]
    omega
  calc l.filter p =
      ((l.take up).take lo ++ (l.take up).drop lo ++ l.drop up).filter p := by
        rw [List.take_append_drop, List.take_append_drop]
    _ = (l.take up).drop lo := by
        rw [List.filter_append, List.filter_append, hbelow, habove, hwithin,
          List.nil_append, List.append_nil]

end Candlestore.Lib
