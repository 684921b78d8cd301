import Mathlib.Data.List.Sort
import Mathlib.Order.Defs.LinearOrder

/-!
# Lists ordered by a key

Deduplication of neighbours and two-way merging of lists whose elements carry
a key in a linear order.  `dedupBy` keeps the first of every run of equal keys;
`mergeBy` merges two lists and on equal keys keeps the element of the second
one.  Both are described by their members and by the order of their output.
-/

namespace Candlestore.Lib

variable {α κ : Type} [LinearOrder κ] (key : α → κ)

/-- The list is non-decreasing in its key. -/
def SortedBy (l : List α) : Prop := l.Pairwise (fun a b => key a ≤ key b)

/-- The list is strictly increasing in its key. -/
def StrictBy (l : List α) : Prop := l.Pairwise (fun a b => key a < key b)

instance (l : List α) : Decidable (SortedBy key l) :=
  inferInstanceAs (Decidable (l.Pairwise (fun a b => key a ≤ key b)))

instance (l : List α) : Decidable (StrictBy key l) :=
  inferInstanceAs (Decidable (l.Pairwise (fun a b => key a < key b)))

theorem StrictBy.sortedBy {l : List α} (h : StrictBy key l) : SortedBy key l :=
  h.imp le_of_lt

theorem StrictBy.filter {l : List α} (h : StrictBy key l) (p : α → Bool) :
    StrictBy key (l.filter p) :=
  List.Pairwise.filter p h

theorem StrictBy.eq_of_key_eq {l : List α} (h : StrictBy key l) {x y : α}
    (hx : x ∈ l) (hy : y ∈ l) (hxy : key x = key y) : x = y := by
  obtain ⟨i, hi, rfl⟩ := List.getElem_of_mem hx
  obtain ⟨j, hj, rfl⟩ := List.getElem_of_mem hy
  have hlt := List.pairwise_iff_getElem.1 h
  rcases Nat.lt_trichotomy i j with hij | rfl | hij
  · exact absurd hxy (ne_of_lt (hlt i j hi hj hij))
  · rfl
  · exact absurd hxy.symm (ne_of_lt (hlt j i hj hi hij))

/-- A strictly increasing list is determined by its members. -/
theorem StrictBy.ext {l₁ l₂ : List α} (h₁ : StrictBy key l₁) (h₂ : StrictBy key l₂)
    (h : ∀ x, x ∈ l₁ ↔ x ∈ l₂) : l₁ = l₂ := by
  have hne : ∀ a b, key a < key b → a ≠ b := by
    intro a b hab heq
    exact absurd (congrArg key heq) (ne_of_lt hab)
  have hperm : l₁.Perm l₂ :=
    (List.perm_ext_iff_of_nodup (h₁.imp (hne _ _)) (h₂.imp (hne _ _))).2 h
  refine hperm.eq_of_pairwise ?_ h₁ h₂
  intro a b _ _ hab hba
  exact absurd hab (lt_asymm hba)

/-! ## Removing neighbours with equal keys -/

/-- Drop every element whose key equals the last one kept. -/
def dedupGo (last : κ) : List α → List α
  | [] => []
  | x :: xs => if key x = last then dedupGo last xs else x :: dedupGo (key x) xs

/-- Keep the first element of every run of equal keys. -/
def dedupBy : List α → List α
  | [] => []
  | x :: xs => x :: dedupGo key (key x) xs

private theorem dedupGo_sublist (l : List α) :
    ∀ last, (dedupGo key last l).Sublist l := by
  induction l with
  | nil => intro _; exact List.Sublist.refl _
  | cons x xs ih =>
      intro last
      simp only [dedupGo]
      split
      · exact (ih last).cons x
      · exact (ih (key x)).cons_cons x

theorem dedupBy_sublist (l : List α) : (dedupBy key l).Sublist l := by
  cases l with
  | nil => exact List.Sublist.refl _
  | cons x xs => exact (dedupGo_sublist key xs (key x)).cons_cons x

private theorem exists_key_dedupGo (l : List α) :
    ∀ last, ∀ x ∈ l, key x = last ∨ ∃ y ∈ dedupGo key last l, key y = key x := by
  induction l with
  | nil =>
      intro _ x hx
      exact absurd hx List.not_mem_nil
  | cons z zs ih =>
      intro last x hx
      simp only [dedupGo]
      rcases List.mem_cons.1 hx with rfl | hx
      · by_cases heq : key x = last
        · exact Or.inl heq
        · rw [if_neg heq]
          exact Or.inr ⟨x, List.mem_cons_self, rfl⟩
      · by_cases heq : key z = last
        · rw [if_pos heq]
          exact ih last x hx
        · rw [if_neg heq]
          rcases ih (key z) x hx with hz | ⟨y, hy, hyx⟩
          · exact Or.inr ⟨z, List.mem_cons_self, hz.symm⟩
          · exact Or.inr ⟨y, List.mem_cons_of_mem z hy, hyx⟩

/-- No key is lost. -/
theorem exists_key_dedupBy (l : List α) (x : α) (hx : x ∈ l) :
    ∃ y ∈ dedupBy key l, key y = key x := by
  cases l with
  | nil => exact absurd hx List.not_mem_nil
  | cons z zs =>
      rcases List.mem_cons.1 hx with rfl | hx
      · exact ⟨x, List.mem_cons_self, rfl⟩
      · rcases exists_key_dedupGo key zs (key z) x hx with hz | ⟨y, hy, hyx⟩
        · exact ⟨z, List.mem_cons_self, hz.symm⟩
        · exact ⟨y, List.mem_cons_of_mem z hy, hyx⟩

private theorem dedupGo_strict (l : List α) :
    ∀ last, (∀ x ∈ l, last ≤ key x) → SortedBy key l →
      StrictBy key (dedupGo key last l) ∧ ∀ x ∈ dedupGo key last l, last < key x := by
  induction l with
  | nil =>
      intro _ _ _
      exact ⟨List.Pairwise.nil, fun x hx => absurd hx List.not_mem_nil⟩
  | cons z zs ih =>
      intro last hlast hsorted
      have hz := List.pairwise_cons.1 hsorted
      simp only [dedupGo]
      by_cases heq : key z = last
      · rw [if_pos heq]
        exact ih last (fun x hx => hlast x (List.mem_cons_of_mem z hx)) hz.2
      · rw [if_neg heq]
        have hlt : last < key z :=
          lt_of_le_of_ne (hlast z List.mem_cons_self) (Ne.symm heq)
        obtain ⟨hstrict, hgt⟩ := ih (key z) hz.1 hz.2
        refine ⟨List.pairwise_cons.2 ⟨hgt, hstrict⟩, ?_⟩
        intro x hx
        rcases List.mem_cons.1 hx with rfl | hx
        · exact hlt
        · exact lt_trans hlt (hgt x hx)

/-- Deduplicating a sorted list leaves it strictly increasing. -/
theorem dedupBy_strict (l : List α) (h : SortedBy key l) :
    StrictBy key (dedupBy key l) := by
  cases l with
  | nil => exact List.Pairwise.nil
  | cons z zs =>
      have hz := List.pairwise_cons.1 h
      obtain ⟨hstrict, hgt⟩ := dedupGo_strict key zs (key z) hz.1 hz.2
      exact List.pairwise_cons.2 ⟨hgt, hstrict⟩

/-! ## Merging two lists -/

/-- Merge, keeping the element of the second list on equal keys. -/
def mergeBy : List α → List α → List α
  | [], b => b
  | a, [] => a
  | x :: xs, y :: ys =>
      if key x < key y then x :: mergeBy xs (y :: ys)
      else if key y < key x then y :: mergeBy (x :: xs) ys
      else y :: mergeBy xs ys
termination_by a b => a.length + b.length

theorem mem_or_mem_of_mem_mergeBy (a b : List α) (x : α) (hx : x ∈ mergeBy key a b) :
    x ∈ a ∨ x ∈ b := by
  induction a, b using mergeBy.induct key with
  | case1 b =>
      rw [mergeBy] at hx
      exact Or.inr hx
  | case2 a hne =>
      rw [mergeBy] at hx
      · exact Or.inl hx
      · exact hne
  | case3 u us v vs hlt ih =>
      rw [mergeBy, if_pos hlt] at hx
      rcases List.mem_cons.1 hx with rfl | hx
      · exact Or.inl List.mem_cons_self
      · exact (ih hx).imp_left (List.mem_cons_of_mem u)
  | case4 u us v vs hnlt hgt ih =>
      rw [mergeBy, if_neg hnlt, if_pos hgt] at hx
      rcases List.mem_cons.1 hx with rfl | hx
      · exact Or.inr List.mem_cons_self
      · exact (ih hx).imp_right (List.mem_cons_of_mem v)
  | case5 u us v vs hnlt hngt ih =>
      rw [mergeBy, if_neg hnlt, if_neg hngt] at hx
      rcases List.mem_cons.1 hx with rfl | hx
      · exact Or.inr List.mem_cons_self
      · exact (ih hx).imp (List.mem_cons_of_mem u) (List.mem_cons_of_mem v)

/-- The second list survives a merge as it is. -/
theorem sublist_mergeBy (a b : List α) : b.Sublist (mergeBy key a b) := by
  induction a, b using mergeBy.induct key with
  | case1 b => rw [mergeBy]
  | case2 a hne => exact List.nil_sublist _
  | case3 u us v vs hlt ih =>
      rw [mergeBy, if_pos hlt]
      exact ih.cons u
  | case4 u us v vs hnlt hgt ih =>
      rw [mergeBy, if_neg hnlt, if_pos hgt]
      exact ih.cons_cons v
  | case5 u us v vs hnlt hngt ih =>
      rw [mergeBy, if_neg hnlt, if_neg hngt]
      exact ih.cons_cons v

/-- An element of the first list is only lost to an equal key of the second. -/
theorem mem_mergeBy_left (a b : List α) (x : α) (hx : x ∈ a) :
    x ∈ mergeBy key a b ∨ ∃ y ∈ b, key y = key x := by
  induction a, b using mergeBy.induct key with
  | case1 b => exact absurd hx List.not_mem_nil
  | case2 a hne =>
      rw [mergeBy]
      · exact Or.inl hx
      · exact hne
  | case3 u us v vs hlt ih =>
      rw [mergeBy, if_pos hlt]
      rcases List.mem_cons.1 hx with rfl | hx
      · exact Or.inl List.mem_cons_self
      · exact (ih hx).imp_left (List.mem_cons_of_mem u)
  | case4 u us v vs hnlt hgt ih =>
      rw [mergeBy, if_neg hnlt, if_pos hgt]
      rcases ih hx with h | ⟨y, hy, hyx⟩
      · exact Or.inl (List.mem_cons_of_mem v h)
      · exact Or.inr ⟨y, List.mem_cons_of_mem v hy, hyx⟩
  | case5 u us v vs hnlt hngt ih =>
      rw [mergeBy, if_neg hnlt, if_neg hngt]
      rcases List.mem_cons.1 hx with rfl | hx
      · exact Or.inr ⟨v, List.mem_cons_self,
          le_antisymm (le_of_not_gt hnlt) (le_of_not_gt hngt)⟩
      · rcases ih hx with h | ⟨y, hy, hyx⟩
        · exact Or.inl (List.mem_cons_of_mem v h)
        · exact Or.inr ⟨y, List.mem_cons_of_mem v hy, hyx⟩

/-- Merging keeps any order of the keys that contains `<` and composes with it. -/
theorem pairwise_mergeBy {r : κ → κ → Prop} (hlt : ∀ {x y}, x < y → r x y)
    (htrans : ∀ {x y z}, x < y → r y z → r x z) (a b : List α)
    (ha : a.Pairwise fun x y => r (key x) (key y))
    (hb : b.Pairwise fun x y => r (key x) (key y)) :
    (mergeBy key a b).Pairwise fun x y => r (key x) (key y) := by
  induction a, b using mergeBy.induct key with
  | case1 b =>
      rw [mergeBy]
      exact hb
  | case2 a hne =>
      rw [mergeBy]
      · exact ha
      · exact hne
  | case3 u us v vs huv ih =>
      have hu := List.pairwise_cons.1 ha
      have hv := List.pairwise_cons.1 hb
      rw [mergeBy, if_pos huv]
      refine List.pairwise_cons.2 ⟨?_, ih hu.2 hb⟩
      intro x hx
      rcases mem_or_mem_of_mem_mergeBy key _ _ x hx with h | h
      · exact hu.1 x h
      · rcases List.mem_cons.1 h with rfl | h
        · exact hlt huv
        · exact htrans huv (hv.1 x h)
  | case4 u us v vs hnlt hvu ih =>
      have hu := List.pairwise_cons.1 ha
      have hv := List.pairwise_cons.1 hb
      rw [mergeBy, if_neg hnlt, if_pos hvu]
      refine List.pairwise_cons.2 ⟨?_, ih ha hv.2⟩
      intro x hx
      rcases mem_or_mem_of_mem_mergeBy key _ _ x hx with h | h
      · rcases List.mem_cons.1 h with rfl | h
        · exact hlt hvu
        · exact htrans hvu (hu.1 x h)
      · exact hv.1 x h
  | case5 u us v vs hnlt hngt ih =>
      have hu := List.pairwise_cons.1 ha
      have hv := List.pairwise_cons.1 hb
      have heq : key v = key u := le_antisymm (le_of_not_gt hnlt) (le_of_not_gt hngt)
      rw [mergeBy, if_neg hnlt, if_neg hngt]
      refine List.pairwise_cons.2 ⟨?_, ih hu.2 hv.2⟩
      intro x hx
      rcases mem_or_mem_of_mem_mergeBy key _ _ x hx with h | h
      · exact heq ▸ hu.1 x h
      · exact hv.1 x h

/-- Merging strictly increasing lists gives a strictly increasing list. -/
theorem mergeBy_strict (a b : List α) (ha : StrictBy key a) (hb : StrictBy key b) :
    StrictBy key (mergeBy key a b) :=
  pairwise_mergeBy key id lt_trans a b ha hb

theorem mergeBy_sorted (a b : List α) (ha : SortedBy key a) (hb : SortedBy key b) :
    SortedBy key (mergeBy key a b) :=
  pairwise_mergeBy key le_of_lt (fun hxy hyz => le_of_lt (lt_of_lt_of_le hxy hyz)) a b
    ha hb

/-- The elements of `a` whose key the list `b` does not have. -/
def freshIn (b a : List α) : List α := a.filter fun x => ∀ y ∈ b, key y ≠ key x

theorem freshIn_cons_of_ne {a b : List α} {v : α} (h : ∀ x ∈ a, key v ≠ key x) :
    freshIn key (v :: b) a = freshIn key b a := by
  apply List.filter_congr
  intro x hx
  simp [h x hx]

/-- Merging keeps all of the second list and what is fresh of the first, each
element as often as it was there. -/
theorem perm_mergeBy (a b : List α) (ha : StrictBy key a) (hb : SortedBy key b) :
    (mergeBy key a b).Perm (b ++ freshIn key b a) := by
  induction a, b using mergeBy.induct key with
  | case1 b =>
      rw [mergeBy, freshIn, List.filter_nil, List.append_nil]
  | case2 a hne =>
      rw [mergeBy]
      · simp [freshIn]
      · exact hne
  | case3 u us v vs huv ih =>
      have hu := List.pairwise_cons.1 ha
      have hfresh : freshIn key (v :: vs) (u :: us) = u :: freshIn key (v :: vs) us := by
        apply List.filter_cons_of_pos
        rw [decide_eq_true_eq, List.forall_mem_cons]
        refine ⟨ne_of_gt huv, ?_⟩
        intro y hy
        exact ne_of_gt (lt_of_lt_of_le huv ((List.pairwise_cons.1 hb).1 y hy))
      rw [mergeBy, if_pos huv, hfresh]
      exact ((ih hu.2 hb).cons u).trans List.perm_middle.symm
  | case4 u us v vs hnlt hvu ih =>
      have hv := List.pairwise_cons.1 hb
      have hne : ∀ x ∈ u :: us, key v ≠ key x := by
        rw [List.forall_mem_cons]
        refine ⟨ne_of_lt hvu, ?_⟩
        intro x hx
        exact ne_of_lt (lt_trans hvu ((List.pairwise_cons.1 ha).1 x hx))
      rw [mergeBy, if_neg hnlt, if_pos hvu, freshIn_cons_of_ne key hne]
      exact (ih ha hv.2).cons v
  | case5 u us v vs hnlt hngt ih =>
      have hu := List.pairwise_cons.1 ha
      have hv := List.pairwise_cons.1 hb
      have heq : key v = key u := le_antisymm (le_of_not_gt hnlt) (le_of_not_gt hngt)
      have hdrop : freshIn key (v :: vs) (u :: us) = freshIn key (v :: vs) us := by
        apply List.filter_cons_of_neg
        simp [heq]
      have hne : ∀ x ∈ us, key v ≠ key x := fun x hx => heq ▸ ne_of_lt (hu.1 x hx)
      rw [mergeBy, if_neg hnlt, if_neg hngt, hdrop, freshIn_cons_of_ne key hne]
      exact (ih hu.2 hv.2).cons v

/-- Keys that the second list does not have come from the first list alone. -/
theorem filter_key_mergeBy (a b : List α) (k : κ) (hb : ∀ y ∈ b, key y ≠ k) :
    (mergeBy key a b).filter (fun x => key x = k) = a.filter fun x => key x = k := by
  induction a, b using mergeBy.induct key with
  | case1 b =>
      rw [mergeBy, List.filter_nil, List.filter_eq_nil_iff]
      intro y hy
      simpa using hb y hy
  | case2 a hne =>
      rw [mergeBy]
      exact hne
  | case3 u us v vs hlt ih =>
      rw [mergeBy, if_pos hlt, List.filter_cons, List.filter_cons, ih hb]
  | case4 u us v vs hnlt hgt ih =>
      have hv : key v ≠ k := hb v List.mem_cons_self
      rw [mergeBy, if_neg hnlt, if_pos hgt, List.filter_cons_of_neg (by simpa using hv),
        ih fun y hy => hb y (List.mem_cons_of_mem v hy)]
  | case5 u us v vs hnlt hngt ih =>
      have heq : key v = key u := le_antisymm (le_of_not_gt hnlt) (le_of_not_gt hngt)
      have hv : key v ≠ k := hb v List.mem_cons_self
      rw [mergeBy, if_neg hnlt, if_neg hngt, List.filter_cons_of_neg (by simpa using hv),
        List.filter_cons_of_neg (by simpa [← heq] using hv),
        ih fun y hy => hb y (List.mem_cons_of_mem v hy)]

/-- A strictly increasing list has one element at each of its keys. -/
theorem StrictBy.filter_key_eq {l : List α} (h : StrictBy key l) {x : α} (hx : x ∈ l) :
    l.filter (fun y => key y = key x) = [x] := by
  refine StrictBy.ext key (h.filter key _) (List.pairwise_singleton _ _) ?_
  intro y
  rw [List.mem_filter, List.mem_singleton, decide_eq_true_eq]
  constructor
  · rintro ⟨hy, hkey⟩
    exact h.eq_of_key_eq key hy hx hkey
  · rintro rfl
    exact ⟨hx, rfl⟩

end Candlestore.Lib
