import Mathlib.Data.List.Chain
import Mathlib.Data.List.Pairwise

/-!
# Points on a line and windows of one length

A sorted list of points is sparse if no window of length `s` holds more than `m` of
them, which is to say that each point and the `m`-th after it are `s` apart.  For points
that come in groups of at most `m`, where only neighbouring groups come close, it is
enough to compare each group with the next.
-/

namespace Candlestore.Lib

/-- How many of the points lie in the window of length `s` that starts at `lo`. -/
def inWindow (s lo : Nat) (l : List Nat) : Nat := l.countP fun t => lo ≤ t ∧ t < lo + s

/-- No window of length `s` holds more than `m` points. -/
def Sparse (s m : Nat) (l : List Nat) : Prop := ∀ lo, inWindow s lo l ≤ m

/-- Each point and the `m`-th after it are `s` apart. -/
def Spread (s m : Nat) (l : List Nat) : Prop := ∀ p ∈ l.zip (l.drop m), p.1 + s ≤ p.2

/-- The points of a group and those of the next, each paired with the `m`-th after it,
are `s` apart. -/
def Apart (s m : Nat) (a b : List Nat) : Prop :=
  ∀ p ∈ a.zip (b.drop (m - a.length)), p.1 + s ≤ p.2

instance (s m : Nat) (a b : List Nat) : Decidable (Apart s m a b) :=
  inferInstanceAs (Decidable (∀ p ∈ _, _))

/-- Groups that are not neighbours are `s` apart. -/
def FarGroups (s : Nat) : List (List Nat) → Prop
  | [] => True
  | a :: rest => (∀ t ∈ a, ∀ u ∈ rest.tail.flatten, t + s ≤ u) ∧ FarGroups s rest

section Windows

variable {s m : Nat} {t : Nat} {l : List Nat}

theorem inWindow_cons (s lo t : Nat) (l : List Nat) :
    inWindow s lo (t :: l) = inWindow s lo l + if lo ≤ t ∧ t < lo + s then 1 else 0 := by
  rw [inWindow, List.countP_cons]
  simp only [decide_eq_true_eq]
  rfl

/-- If the `m`-th point after `t` is less than `s` away, so are the points before it. -/
theorem lt_inWindow_of_close (hl : l.Pairwise (· ≤ ·)) (hfirst : ∀ x ∈ l, t ≤ x)
    {u : Nat} (hu : l[m]? = some u) (hclose : u < t + s) : m < inWindow s t l := by
  have hall : ∀ x ∈ l.take (m + 1), t ≤ x ∧ x < t + s := by
    intro x hx
    have hxu : x ≤ u := by
      rw [List.take_add_one, hu, Option.toList_some, List.mem_append] at hx
      rcases hx with hx | hx
      · have hsplit := List.pairwise_append.1 ((List.take_append_drop m l).symm ▸ hl)
        refine hsplit.2.2 x hx u (List.mem_of_mem_head? ?_)
        rw [List.head?_drop, hu]
        exact rfl
      · exact Nat.le_of_eq (List.mem_singleton.1 hx)
    exact ⟨hfirst x (List.mem_of_mem_take hx), by omega⟩
  have hlen : (l.take (m + 1)).length = m + 1 := by
    have hlt := (List.getElem?_eq_some_iff.1 hu).1
    rw [List.length_take]
    omega
  have hcount : inWindow s t (l.take (m + 1)) = (l.take (m + 1)).length :=
    List.countP_eq_length.2 fun x hx => decide_eq_true (hall x hx)
  have hpart : inWindow s t (l.take (m + 1)) ≤ inWindow s t l :=
    (List.take_sublist _ _).countP_le
  omega

/-- If the `m`-th point after `t` is `s` away or more, so are the points after it, and a
window that starts at `t` or earlier holds none of them. -/
theorem inWindow_le_of_apart (hl : l.Pairwise (· ≤ ·))
    (hapart : ∀ u, l[m]? = some u → t + s ≤ u) {lo : Nat} (hlo : lo ≤ t) :
    inWindow s lo l ≤ m := by
  have hlate : inWindow s lo (l.drop m) = 0 := by
    refine List.countP_eq_zero.2 ?_
    intro x hx hwin
    have hwin := of_decide_eq_true hwin
    have hdrop := hl.sublist (List.drop_sublist m l)
    cases hd : l.drop m with
    | nil =>
        rw [hd] at hx
        cases hx
    | cons u rest =>
        have hu : l[m]? = some u := by rw [← List.head?_drop, hd, List.head?_cons]
        have hge : u ≤ x := by
          rw [hd] at hdrop hx
          rcases List.mem_cons.1 hx with rfl | hx
          · exact Nat.le_refl _
          · exact (List.pairwise_cons.1 hdrop).1 x hx
        have hsu := hapart u hu
        omega
  have hearly : inWindow s lo (l.take m) ≤ m :=
    Nat.le_trans List.countP_le_length (List.length_take_le m l)
  have hsplit : inWindow s lo l = inWindow s lo (l.take m) + inWindow s lo
      (l.drop m) := by
    rw [inWindow, inWindow, inWindow, ← List.countP_append, List.take_append_drop]
  omega

/-- With another point in front, the windows that hold it are the ones to look at. -/
theorem sparse_cons_iff (hs : 0 < s) (hl : (t :: l).Pairwise (· ≤ ·)) :
    Sparse s (m + 1) (t :: l) ↔
      Sparse s (m + 1) l ∧ ∀ u, l[m]? = some u → t + s ≤ u := by
  obtain ⟨hfirst, hsorted⟩ := List.pairwise_cons.1 hl
  constructor
  · intro h
    refine ⟨?_, ?_⟩
    · intro lo
      have hle := h lo
      rw [inWindow_cons] at hle
      omega
    · intro u hu
      by_contra hclose
      have hmany := lt_inWindow_of_close hsorted hfirst hu (Nat.lt_of_not_le hclose)
      have hle := h t
      rw [inWindow_cons, if_pos ⟨Nat.le_refl t, by omega⟩] at hle
      omega
  · rintro ⟨h, hapart⟩ lo
    rw [inWindow_cons]
    split
    · next hin =>
      have hfew := inWindow_le_of_apart hsorted hapart hin.1
      omega
    · exact h lo

theorem spread_cons_iff :
    Spread s (m + 1) (t :: l) ↔
      Spread s (m + 1) l ∧ ∀ u, l[m]? = some u → t + s ≤ u := by
  rw [Spread, List.drop_succ_cons, Spread, ← List.drop_drop]
  cases hd : l.drop m with
  | nil =>
      have hnone : l[m]? = none := by rw [← List.head?_drop, hd, List.head?_nil]
      simp [hnone]
  | cons u rest =>
      have hu : l[m]? = some u := by rw [← List.head?_drop, hd, List.head?_cons]
      rw [List.zip_cons_cons, List.forall_mem_cons, hu, and_comm]
      simp

/-- Sparse and spread are the same. -/
theorem sparse_iff_spread (hs : 0 < s) (hl : l.Pairwise (· ≤ ·)) :
    Sparse s m l ↔ Spread s m l := by
  cases m with
  | zero =>
      -- without room for a single point both say that there is none
      cases l with
      | nil => exact iff_of_true (fun _ => Nat.le_refl 0) (fun p hp => by cases hp)
      | cons t l =>
          refine iff_of_false ?_ ?_
          · intro h
            have hle := h t
            rw [inWindow_cons, if_pos ⟨Nat.le_refl t, by omega⟩] at hle
            omega
          · intro h
            have hle := h (t, t) List.mem_cons_self
            dsimp only at hle
            omega
  | succ m =>
      induction l with
      | nil => exact iff_of_true (fun _ => Nat.zero_le _) (fun p hp => by cases hp)
      | cons t l ih =>
          rw [sparse_cons_iff hs hl, spread_cons_iff, ih (List.pairwise_cons.1 hl).2]

end Windows

section Groups

variable {s m : Nat}

theorem zip_append_left {α β : Type} (a b : List α) (c : List β) :
    (a ++ b).zip c = a.zip c ++ b.zip (c.drop a.length) := by
  induction a generalizing c with
  | nil => rfl
  | cons x a ih =>
      cases c with
      | nil => simp
      | cons y c =>
          rw [List.cons_append, List.zip_cons_cons, ih, List.zip_cons_cons,
            List.cons_append,
            List.length_cons, List.drop_succ_cons]

theorem spread_append_iff {a l : List Nat} (ha : a.length ≤ m) :
    Spread s m (a ++ l) ↔ Apart s m a l ∧ Spread s m l := by
  have hdrop : (a ++ l).drop m = l.drop (m - a.length) := by
    rw [List.drop_append, List.drop_eq_nil_of_le ha, List.nil_append]
  have hrest : (l.drop (m - a.length)).drop a.length = l.drop m := by
    rw [List.drop_drop]
    congr 1
    omega
  rw [Spread, hdrop, zip_append_left, hrest, List.forall_mem_append]
  rfl

/-- What comes after the next group is far away already. -/
theorem apart_append_iff {a b l : List Nat} (hfar : ∀ t ∈ a, ∀ u ∈ l, t + s ≤ u) :
    Apart s m a (b ++ l) ↔ Apart s m a b := by
  rw [Apart, Apart, List.drop_append]
  constructor
  · intro h p hp
    refine h p ?_
    obtain ⟨i, hi, rfl⟩ := List.mem_iff_getElem.1 hp
    rw [List.length_zip] at hi
    refine List.mem_iff_getElem.2 ⟨i, ?_, ?_⟩
    · rw [List.length_zip, List.length_append]
      omega
    · rw [List.getElem_zip, List.getElem_zip, List.getElem_append_left (by omega)]
  · intro h p hp
    obtain ⟨i, hi, rfl⟩ := List.mem_iff_getElem.1 hp
    rw [List.length_zip, List.length_append] at hi
    rw [List.getElem_zip]
    by_cases hnear : i < (b.drop (m - a.length)).length
    · rw [List.getElem_append_left hnear]
      refine h _ (List.mem_iff_getElem.2 ⟨i, ?_, List.getElem_zip⟩)
      rw [List.length_zip]
      omega
    · rw [List.getElem_append_right (Nat.le_of_not_lt hnear)]
      exact hfar _ (List.getElem_mem _) _ (List.mem_of_mem_drop (List.getElem_mem _))

/-- Groups of at most `m` points, of which only neighbours come close, are spread exactly
if each group and the next are apart. -/
theorem spread_flatten_iff {groups : List (List Nat)} (hlen : ∀ a ∈ groups, a.length ≤ m)
    (hfar : FarGroups s groups) :
    Spread s m groups.flatten ↔ groups.IsChain (Apart s m) := by
  induction groups with
  | nil => exact iff_of_true (fun p hp => by cases hp) .nil
  | cons a rest ih =>
      obtain ⟨hfirst, hfar⟩ := hfar
      rw [List.flatten_cons, spread_append_iff (hlen a List.mem_cons_self),
        ih (fun b hb => hlen b (List.mem_cons_of_mem _ hb)) hfar]
      cases rest with
      | nil =>
          refine iff_of_true ⟨?_, .nil⟩ (.singleton a)
          intro p hp
          simp at hp
      | cons b rest =>
          rw [List.tail_cons] at hfirst
          rw [List.flatten_cons, apart_append_iff hfirst, List.isChain_cons_cons]

/-- Leaving points out keeps groups far from each other. -/
theorem FarGroups.map_take {groups : List (List Nat)} (h : FarGroups s groups)
    (m : Nat) : FarGroups s (groups.map (List.take m)) := by
  induction groups with
  | nil => exact h
  | cons a rest ih =>
      obtain ⟨hfirst, hrest⟩ := h
      refine ⟨?_, ih hrest⟩
      intro t ht u hu
      rw [← List.map_tail] at hu
      obtain ⟨c, hc, huc⟩ := List.mem_flatten.1 hu
      obtain ⟨b, hb, rfl⟩ := List.mem_map.1 hc
      exact hfirst t (List.mem_of_mem_take ht) u
        (List.mem_flatten.2 ⟨b, hb, List.mem_of_mem_take huc⟩)

end Groups

end Candlestore.Lib
