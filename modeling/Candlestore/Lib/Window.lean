import Mathlib.Data.List.DropRight

/-!
# The end of a list

Facts about `List.rtake`, the last `n` elements, and about two lists that agree
on their last elements up to some depth: what a consumer has kept of a growing
list agrees with the list as far as it skipped nothing.
-/

namespace Candlestore.Lib

variable {α β : Type}

theorem rtake_append_of_le {l₁ l₂ : List α} {n : Nat} (h : n ≤ l₂.length) :
    (l₁ ++ l₂).rtake n = l₂.rtake n := by
  rw [List.rtake, List.rtake, List.drop_append, List.length_append,
    List.drop_eq_nil_of_le (by omega), List.nil_append]
  congr 1
  omega

theorem rtake_append_of_ge {l₁ l₂ : List α} {n : Nat} (h : l₂.length ≤ n) :
    (l₁ ++ l₂).rtake n = l₁.rtake (n - l₂.length) ++ l₂ := by
  rw [List.rtake, List.rtake, List.drop_append, List.length_append,
    show l₁.length + l₂.length - n - l₁.length = 0 by omega, List.drop_zero]
  congr 2
  omega

theorem rtake_of_length_le {l : List α} {n : Nat} (h : l.length ≤ n) :
    l.rtake n = l := by
  rw [List.rtake, Nat.sub_eq_zero_of_le h, List.drop_zero]

theorem length_rtake (l : List α) (n : Nat) : (l.rtake n).length = min n l.length := by
  rw [List.rtake, List.length_drop]
  omega

theorem rtake_min_length (l : List α) (n : Nat) :
    l.rtake (min n l.length) = l.rtake n := by
  rw [List.rtake, List.rtake]
  congr 1
  omega

theorem rtake_rtake {l : List α} {m n : Nat} (h : m ≤ n) :
    (l.rtake n).rtake m = l.rtake m := by
  rw [List.rtake, length_rtake, List.rtake, List.drop_drop, List.rtake]
  congr 1
  omega

theorem map_rtake (f : α → β) (l : List α) (n : Nat) :
    (l.rtake n).map f = (l.map f).rtake n := by
  rw [List.rtake, List.rtake, List.map_drop, List.length_map]

theorem getLast?_rtake (l : List α) {n : Nat} (hn : 0 < n) :
    (l.rtake n).getLast? = l.getLast? := by
  rw [List.rtake, List.getLast?_drop]
  split
  · have hnil : l = [] := List.length_eq_zero_iff.1 (by omega)
    rw [hnil, List.getLast?_nil]
  · rfl

/-- What was kept has the last `d` elements of the whole list, for every `d` up
to `depth` that it is long enough for. -/
structure AgreeUpTo (depth : Nat) (kept whole : List α) : Prop where
  length_le : kept.length ≤ whole.length
  rtake_eq : ∀ d ≤ kept.length, d ≤ depth → kept.rtake d = whole.rtake d

namespace AgreeUpTo

variable {depth : Nat} {kept whole : List α}

theorem nil : AgreeUpTo depth ([] : List α) [] := ⟨Nat.le_refl 0, fun _ _ _ => rfl⟩

/-- Nothing is skipped. -/
theorem append (h : AgreeUpTo depth kept whole) (new : List α) :
    AgreeUpTo depth (kept ++ new) (whole ++ new) where
  length_le := by
    rw [List.length_append, List.length_append]
    exact Nat.add_le_add_right h.length_le _
  rtake_eq := by
    intro d hd hdepth
    rw [List.length_append] at hd
    rcases Nat.le_total d new.length with hle | hge
    · rw [rtake_append_of_le hle, rtake_append_of_le hle]
    · rw [rtake_append_of_ge hge, rtake_append_of_ge hge,
        h.rtake_eq _ (by omega) (by omega)]

/-- All but the last `m` of the new elements are skipped, by one who looks no
deeper than that or had kept nothing. -/
theorem append_rtake (h : AgreeUpTo depth kept whole) {new : List α} {m : Nat}
    (hm : m ≤ new.length) (hdepth : depth ≤ m ∨ kept = []) :
    AgreeUpTo depth (kept ++ new.rtake m) (whole ++ new) := by
  have hlen : (new.rtake m).length = m := by
    rw [length_rtake]
    exact Nat.min_eq_left hm
  have hle := h.length_le
  refine ⟨?_, ?_⟩
  · rw [List.length_append, List.length_append, hlen]
    omega
  · intro d hd hd'
    have hdm : d ≤ m := by
      rcases hdepth with hdepth | hnil
      · omega
      · rw [hnil, List.nil_append, hlen] at hd
        exact hd
    rw [rtake_append_of_le (by omega), rtake_rtake hdm, rtake_append_of_le (by omega)]

end AgreeUpTo

end Candlestore.Lib
