import Candlestore.Store.Basic

/-!
# The merge of the hot and the cold half

`merge_by_ts` walks two lists with a cursor each and copies what is left of
either when the other is exhausted.  The store's `mergeByTs` is the recursive
reading of that loop; this file has the loop itself and proves the two equal,
what is left at a cursor being `drop`.
-/

namespace Candlestore.Store

open Lib

variable {F : Type}

/-- The loop of `merge_by_ts` from the cursors `ai` and `bi`, and the two copies
after it. -/
def mergeLoop (a b : List (Candle F)) (ai bi : Nat) (out : List (Candle F)) :
    List (Candle F) :=
  if h : ai < a.length ∧ bi < b.length then
    match compare a[ai].ts b[bi].ts with
    | .lt => mergeLoop a b (ai + 1) bi (out ++ [a[ai]])
    | .gt => mergeLoop a b ai (bi + 1) (out ++ [b[bi]])
    | .eq => mergeLoop a b (ai + 1) (bi + 1) (out ++ [b[bi]])
  else out ++ a.drop ai ++ b.drop bi
termination_by (a.length - ai) + (b.length - bi)

/-- `merge_by_ts` with its cursors. -/
def mergeCursors (a b : List (Candle F)) : List (Candle F) := mergeLoop a b 0 0 []

/-- The loop appends the merge of what is left at the cursors. -/
theorem mergeLoop_eq (a b : List (Candle F)) (ai bi : Nat) (out : List (Candle F)) :
    mergeLoop a b ai bi out = out ++ mergeBy Candle.ts (a.drop ai) (b.drop bi) := by
  induction ai, bi, out using mergeLoop.induct a b with
  | case1 ai bi out h hcmp ih =>
      have hlt : a[ai].ts < b[bi].ts := compare_lt_iff_lt.1 hcmp
      rw [mergeLoop, dif_pos h, List.drop_eq_getElem_cons h.1,
        List.drop_eq_getElem_cons h.2,
        mergeBy, if_pos hlt]
      simp only [hcmp, ih, List.append_assoc, List.singleton_append]
      rw [List.drop_eq_getElem_cons h.2]
  | case2 ai bi out h hcmp ih =>
      have hgt : b[bi].ts < a[ai].ts := compare_gt_iff_gt.1 hcmp
      rw [mergeLoop, dif_pos h, List.drop_eq_getElem_cons h.1,
        List.drop_eq_getElem_cons h.2,
        mergeBy, if_neg (lt_asymm hgt), if_pos hgt]
      simp only [hcmp, ih, List.append_assoc, List.singleton_append]
      rw [List.drop_eq_getElem_cons h.1]
  | case3 ai bi out h hcmp ih =>
      have heq : a[ai].ts = b[bi].ts := compare_eq_iff_eq.1 hcmp
      rw [mergeLoop, dif_pos h, List.drop_eq_getElem_cons h.1,
        List.drop_eq_getElem_cons h.2,
        mergeBy, if_neg (not_lt.2 heq.ge), if_neg (not_lt.2 heq.le)]
      simp only [hcmp, ih, List.append_assoc, List.singleton_append]
  | case4 ai bi out h =>
      rw [mergeLoop, dif_neg h, List.append_assoc]
      congr 1
      rcases Nat.lt_or_ge ai a.length with ha | ha
      · have hb : b.drop bi = [] := List.drop_eq_nil_of_le (by omega)
        rw [hb, List.append_nil]
        cases a.drop ai <;> rw [mergeBy]
        exact fun h => by cases h
      · rw [List.drop_eq_nil_of_le ha, mergeBy, List.nil_append]

theorem mergeCursors_eq (a b : List (Candle F)) : mergeCursors a b = mergeByTs a b := by
  rw [mergeCursors, mergeLoop_eq, List.drop_zero, List.drop_zero, List.nil_append]
  rfl

/-- What merging does.  For cold candles with strictly increasing timestamps and
hot candles in timestamp order the result is in timestamp order, has all hot
candles in their order, and besides them exactly the cold candles whose
timestamp no hot candle has. -/
theorem mergeCursors_spec (a b : List (Candle F)) (ha : StrictBy Candle.ts a)
    (hb : SortedBy Candle.ts b) :
    SortedBy Candle.ts (mergeCursors a b) ∧ b.Sublist (mergeCursors a b) ∧
      (mergeCursors a b).Perm (b ++ a.filter fun x => ∀ y ∈ b, y.ts ≠ x.ts) := by
  rw [mergeCursors_eq, mergeByTs]
  exact ⟨mergeBy_sorted _ a b (ha.sortedBy _) hb, sublist_mergeBy _ a b,
    perm_mergeBy _ a b ha hb⟩

/-- A cold candle gives way to two hot ones with its timestamp. -/
theorem mergeCursors_spec_duplicate :
    let a : List (Candle ℚ) := [flatCandle 1 1, flatCandle 2 2, flatCandle 4 3]
    let b : List (Candle ℚ) := [flatCandle 2 5, flatCandle 2 6, flatCandle 3 7]
    StrictBy Candle.ts a ∧ SortedBy Candle.ts b ∧
      SortedBy Candle.ts (mergeCursors a b) ∧ b.Sublist (mergeCursors a b) ∧
      (mergeCursors a b).Perm (b ++ [flatCandle 1 1, flatCandle 4 3]) := by
  intro a b
  have ha : StrictBy Candle.ts a := by decide
  have hb : SortedBy Candle.ts b := by decide
  exact ⟨ha, hb, mergeCursors_spec a b ha hb⟩

end Candlestore.Store
