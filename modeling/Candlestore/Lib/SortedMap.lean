import Candlestore.Lib.KeyedList

/-!
# Maps as sorted association lists

A map with keys in a linear order, kept as the list of its entries in
increasing key order.  The order is a field of the structure, so every
operation hands back a map that is sorted again.  Iteration from either end is
reading `entries` forwards or backwards, and `get?` decides membership.
-/

namespace Candlestore.Lib

/-- A finite map, as its entries in strictly increasing key order. -/
structure SortedMap (κ ν : Type) [LinearOrder κ] where
  entries : List (κ × ν)
  strict : StrictBy Prod.fst entries

namespace SortedMap

variable {κ ν : Type} [LinearOrder κ]

/-- The map without entries. -/
def empty : SortedMap κ ν := ⟨[], List.Pairwise.nil⟩

/-- The value of a key. -/
def get? (m : SortedMap κ ν) (k : κ) : Option ν :=
  (m.entries.find? fun e => e.1 = k).map Prod.snd

/-- The smallest key. -/
def firstKey? (m : SortedMap κ ν) : Option κ := m.entries.head?.map Prod.fst

/-- The largest key. -/
def lastKey? (m : SortedMap κ ν) : Option κ := m.entries.getLast?.map Prod.fst

/-- Insert into sorted entries, replacing the value of an equal key. -/
def insertEntry (k : κ) (v : ν) : List (κ × ν) → List (κ × ν)
  | [] => [(k, v)]
  | e :: es =>
      if k < e.1 then (k, v) :: e :: es
      else if k = e.1 then (k, v) :: es
      else e :: insertEntry k v es

theorem mem_insertEntry (k : κ) (v : ν) (es : List (κ × ν)) (hes : StrictBy Prod.fst es)
    (x : κ × ν) : x ∈ insertEntry k v es ↔ x = (k, v) ∨ x ∈ es ∧ x.1 ≠ k := by
  induction es with
  | nil => simp [insertEntry]
  | cons e es ih =>
      obtain ⟨hlt, hes⟩ := List.pairwise_cons.1 hes
      rw [insertEntry]
      by_cases hk : k < e.1
      · have hne : ∀ y ∈ e :: es, y.1 ≠ k := by
          intro y hy
          rcases List.mem_cons.1 hy with rfl | hy
          · exact ne_of_gt hk
          · exact ne_of_gt (lt_trans hk (hlt y hy))
        rw [if_pos hk, List.mem_cons]
        exact or_congr_right ⟨fun hx => ⟨hx, hne x hx⟩, And.left⟩
      · rw [if_neg hk]
        by_cases heq : k = e.1
        · rw [if_pos heq, List.mem_cons]
          refine or_congr_right ⟨fun hx => ⟨List.mem_cons_of_mem e hx, ?_⟩, ?_⟩
          · rw [heq]
            exact ne_of_gt (hlt x hx)
          · rintro ⟨hx, hxk⟩
            rcases List.mem_cons.1 hx with rfl | hx
            · exact absurd heq.symm hxk
            · exact hx
        · rw [if_neg heq, List.mem_cons, ih hes, List.mem_cons]
          constructor
          · rintro (rfl | rfl | ⟨hx, hxk⟩)
            · exact Or.inr ⟨Or.inl rfl, Ne.symm heq⟩
            · exact Or.inl rfl
            · exact Or.inr ⟨Or.inr hx, hxk⟩
          · rintro (rfl | ⟨rfl | hx, hxk⟩)
            · exact Or.inr (Or.inl rfl)
            · exact Or.inl rfl
            · exact Or.inr (Or.inr ⟨hx, hxk⟩)

theorem insertEntry_strict (k : κ) (v : ν) (es : List (κ × ν))
    (hes : StrictBy Prod.fst es) : StrictBy Prod.fst (insertEntry k v es) := by
  induction es with
  | nil => exact List.pairwise_singleton _ _
  | cons e es ih =>
      obtain ⟨hlt, htail⟩ := List.pairwise_cons.1 hes
      rw [insertEntry]
      by_cases hk : k < e.1
      · rw [if_pos hk]
        refine List.pairwise_cons.2 ⟨?_, hes⟩
        intro y hy
        rcases List.mem_cons.1 hy with rfl | hy
        · exact hk
        · exact lt_trans hk (hlt y hy)
      · rw [if_neg hk]
        by_cases heq : k = e.1
        · rw [if_pos heq]
          refine List.pairwise_cons.2 ⟨?_, htail⟩
          intro y hy
          rw [heq]
          exact hlt y hy
        · rw [if_neg heq]
          refine List.pairwise_cons.2 ⟨?_, ih htail⟩
          intro y hy
          rcases (mem_insertEntry k v es htail y).1 hy with rfl | ⟨hy, _⟩
          · exact lt_of_le_of_ne (le_of_not_gt hk) (Ne.symm heq)
          · exact hlt y hy

/-- Put a value at a key, in the place of the one it had. -/
def insert (m : SortedMap κ ν) (k : κ) (v : ν) : SortedMap κ ν :=
  ⟨insertEntry k v m.entries, insertEntry_strict k v m.entries m.strict⟩

/-- Remove a key. -/
def erase (m : SortedMap κ ν) (k : κ) : SortedMap κ ν :=
  ⟨m.entries.filter fun e => e.1 ≠ k, m.strict.filter Prod.fst _⟩

@[simp] theorem mem_entries_insert (m : SortedMap κ ν) (k : κ) (v : ν) (x : κ × ν) :
    x ∈ (m.insert k v).entries ↔ x = (k, v) ∨ x ∈ m.entries ∧ x.1 ≠ k :=
  mem_insertEntry k v m.entries m.strict x

theorem entries_erase (m : SortedMap κ ν) (k : κ) :
    (m.erase k).entries = m.entries.filter fun e => e.1 ≠ k := rfl

@[simp] theorem mem_entries_erase (m : SortedMap κ ν) (k : κ) (x : κ × ν) :
    x ∈ (m.erase k).entries ↔ x ∈ m.entries ∧ x.1 ≠ k := by
  simp [entries_erase]

theorem get?_eq_some (m : SortedMap κ ν) (k : κ) (v : ν) :
    m.get? k = some v ↔ (k, v) ∈ m.entries := by
  rw [get?, Option.map_eq_some_iff]
  constructor
  · rintro ⟨⟨k', v'⟩, hfind, rfl⟩
    have hk : k' = k := by simpa using List.find?_some hfind
    exact hk ▸ List.mem_of_find?_eq_some hfind
  · intro hmem
    cases hfind : m.entries.find? (fun e => e.1 = k) with
    | none => exact absurd (decide_eq_true rfl) (List.find?_eq_none.1 hfind (k, v) hmem)
    | some e =>
        have hk : e.1 = k := by simpa using List.find?_some hfind
        have heq := m.strict.eq_of_key_eq Prod.fst
          (List.mem_of_find?_eq_some hfind) hmem hk
        exact ⟨e, rfl, congrArg Prod.snd heq⟩

theorem get?_eq_none (m : SortedMap κ ν) (k : κ) :
    m.get? k = none ↔ ∀ e ∈ m.entries, e.1 ≠ k := by
  rw [get?, Option.map_eq_none_iff, List.find?_eq_none]
  simp

theorem mem_of_firstKey? {m : SortedMap κ ν} {k : κ} (h : m.firstKey? = some k) :
    ∃ v, (k, v) ∈ m.entries := by
  obtain ⟨⟨k', v⟩, hhead, rfl⟩ := Option.map_eq_some_iff.1 h
  exact ⟨v, List.mem_of_head? hhead⟩

theorem mem_of_lastKey? {m : SortedMap κ ν} {k : κ} (h : m.lastKey? = some k) :
    ∃ v, (k, v) ∈ m.entries := by
  obtain ⟨⟨k', v⟩, hlast, rfl⟩ := Option.map_eq_some_iff.1 h
  exact ⟨v, List.mem_of_getLast? hlast⟩

/-- Inserting a new key adds one entry. -/
theorem entries_insert_perm {m : SortedMap κ ν} {k : κ} (h : m.get? k = none) (v : ν) :
    (m.insert k v).entries.Perm ((k, v) :: m.entries) := by
  rw [get?_eq_none] at h
  have hnodup : ∀ l : List (κ × ν), StrictBy Prod.fst l → l.Nodup :=
    fun l hl => hl.imp fun hab heq => ne_of_lt hab (congrArg Prod.fst heq)
  refine (List.perm_ext_iff_of_nodup (hnodup _ (m.insert k v).strict)
    (List.nodup_cons.2 ⟨fun hmem => h _ hmem rfl, hnodup _ m.strict⟩)).2 ?_
  intro x
  rw [mem_entries_insert, List.mem_cons]
  exact or_congr_right ⟨And.left, fun hx => ⟨hx, h x hx⟩⟩

section Split

variable {m : SortedMap κ ν} {pre post : List (κ × ν)} {k : κ} {v : ν}

/-- Around one entry of the map no other entry has its key. -/
theorem key_ne_of_split (h : m.entries = pre ++ (k, v) :: post) :
    ∀ x ∈ pre ++ post, x.1 ≠ k := by
  have hstrict := m.strict
  rw [h] at hstrict
  obtain ⟨_, htail, hcross⟩ := List.pairwise_append.1 hstrict
  intro x hx
  rcases List.mem_append.1 hx with hx | hx
  · exact ne_of_lt (hcross x hx (k, v) List.mem_cons_self)
  · exact ne_of_gt ((List.pairwise_cons.1 htail).1 x hx)

theorem entries_erase_of_split (h : m.entries = pre ++ (k, v) :: post) :
    (m.erase k).entries = pre ++ post := by
  have hne := key_ne_of_split h
  have hself : ∀ l : List (κ × ν), (∀ x ∈ l, x.1 ≠ k) →
      l.filter (fun e => e.1 ≠ k) = l := by
    intro l hl
    rw [List.filter_eq_self]
    simpa using hl
  rw [entries_erase, h, List.filter_append, List.filter_cons_of_neg (by simp),
    hself pre fun x hx => hne x (List.mem_append_left _ hx),
    hself post fun x hx => hne x (List.mem_append_right _ hx)]

/-- Writing to an existing key changes that entry in place. -/
theorem entries_insert_of_split (h : m.entries = pre ++ (k, v) :: post) (w : ν) :
    (m.insert k w).entries = pre ++ (k, w) :: post := by
  have hne := key_ne_of_split h
  have hstrict : StrictBy Prod.fst (pre ++ (k, w) :: post) := by
    have hold := m.strict
    rw [h] at hold
    obtain ⟨hpre, htail, hcross⟩ := List.pairwise_append.1 hold
    obtain ⟨hlt, hpost⟩ := List.pairwise_cons.1 htail
    refine List.pairwise_append.2 ⟨hpre, List.pairwise_cons.2 ⟨hlt, hpost⟩, ?_⟩
    intro a ha b hb
    rcases List.mem_cons.1 hb with rfl | hb
    · exact hcross a ha (k, v) List.mem_cons_self
    · exact hcross a ha b (List.mem_cons_of_mem _ hb)
  refine StrictBy.ext Prod.fst (m.insert k w).strict hstrict ?_
  intro x
  have hx : x ∈ pre ++ post → x.1 ≠ k := hne x
  rw [mem_entries_insert, h]
  simp only [List.mem_append, List.mem_cons] at hx ⊢
  constructor
  · rintro (rfl | ⟨hpre | rfl | hpost, hxk⟩)
    · exact Or.inr (Or.inl rfl)
    · exact Or.inl hpre
    · exact absurd rfl hxk
    · exact Or.inr (Or.inr hpost)
  · rintro (hpre | rfl | hpost)
    · exact Or.inr ⟨Or.inl hpre, hx (Or.inl hpre)⟩
    · exact Or.inl rfl
    · exact Or.inr ⟨Or.inr (Or.inr hpost), hx (Or.inr hpost)⟩

end Split

/-! ## Mapping the values -/

section MapVal

variable {μ : Type} (f : ν → μ) (m : SortedMap κ ν)

@[ext] theorem ext_entries {m₁ m₂ : SortedMap κ ν} (h : m₁.entries = m₂.entries) :
    m₁ = m₂ := by
  cases m₁
  cases m₂
  cases h
  rfl

theorem map_strict : StrictBy Prod.fst (m.entries.map fun e => (e.1, f e.2)) := by
  rw [StrictBy, List.pairwise_map]
  exact m.strict

/-- The same keys with every value mapped. -/
def mapVal : SortedMap κ μ := ⟨m.entries.map fun e => (e.1, f e.2), m.map_strict f⟩

theorem mapVal_firstKey? : (m.mapVal f).firstKey? = m.firstKey? := by
  rw [firstKey?, mapVal, List.head?_map, Option.map_map]
  rfl

theorem mapVal_lastKey? : (m.mapVal f).lastKey? = m.lastKey? := by
  rw [lastKey?, mapVal, List.getLast?_map, Option.map_map]
  rfl

theorem mapVal_get? (k : κ) : (m.mapVal f).get? k = (m.get? k).map f := by
  simp only [get?, mapVal, List.find?_map, Option.map_map]
  rfl

theorem mapVal_insert (k : κ) (v : ν) :
    (m.insert k v).mapVal f = (m.mapVal f).insert k (f v) := by
  have hentry : ∀ es : List (κ × ν), (insertEntry k v es).map (fun e => (e.1, f e.2)) =
      insertEntry k (f v) (es.map fun e => (e.1, f e.2)) := by
    intro es
    induction es with
    | nil => rfl
    | cons e es ih =>
        rw [List.map_cons, insertEntry, insertEntry]
        split
        · rfl
        · split
          · rfl
          · rw [List.map_cons, ih]
  exact ext_entries (hentry m.entries)

theorem mapVal_erase (k : κ) : (m.erase k).mapVal f = (m.mapVal f).erase k := by
  apply ext_entries
  show (m.entries.filter _).map _ = (m.entries.map _).filter _
  rw [List.filter_map]
  rfl

end MapVal

end SortedMap

end Candlestore.Lib
