import Mathlib.Tactic.Common

/-!
# Histories in which every event is explained by its past

A history is the list of events so far, oldest first.  A property that ties
each event to the events before it is checked once, when the event is added.
-/

namespace Candlestore.Lib

variable {ε : Type} {P : List ε → ε → Prop}

/-- Every event `x` of the history satisfies `P past x`, where `past` is the
history before it. -/
def Explained (P : List ε → ε → Prop) (l : List ε) : Prop :=
  ∀ past x later, l = past ++ x :: later → P past x

theorem explained_nil : Explained P [] := by
  intro past x later h
  have := congrArg List.length h
  simp at this

theorem Explained.snoc {l : List ε} (h : Explained P l) {x : ε} (hx : P l x) :
    Explained P (l ++ [x]) := by
  intro past y later heq
  rcases List.eq_nil_or_concat later with rfl | ⟨later, z, rfl⟩
  · obtain ⟨rfl, hy⟩ := List.append_inj' heq rfl
    cases hy
    exact hx
  · rw [List.concat_eq_append, ← List.cons_append, ← List.append_assoc] at heq
    obtain ⟨hl, -⟩ := List.append_inj' heq rfl
    exact h past y later hl

/-- The history up to some point is explained too. -/
theorem Explained.past {l past later : List ε} (h : Explained P l)
    (hl : l = past ++ later) : Explained P past := by
  rintro past' x later' rfl
  refine h past' x (later' ++ later) ?_
  rw [hl, List.append_assoc, List.cons_append]

/-! ## Events labelled by their source -/

section Labelled

variable {σ α : Type} (f : σ → List α)

/-- The events that the sources emit, each with the label of its source. -/
def labelled (sources : List (Nat × σ)) : List (Nat × α) :=
  sources.flatMap fun s => (f s.2).map (Prod.mk s.1)

@[simp] theorem labelled_nil : labelled f [] = [] := rfl

theorem labelled_cons (s : Nat × σ) (sources : List (Nat × σ)) :
    labelled f (s :: sources) = (f s.2).map (Prod.mk s.1) ++ labelled f sources :=
  List.flatMap_cons

theorem map_snd_labelled (sources : List (Nat × σ)) :
    (labelled f sources).map Prod.snd = (sources.map Prod.snd).flatMap f := by
  induction sources with
  | nil => rfl
  | cons s sources ih =>
      have hself : (f s.2).map (Prod.snd ∘ Prod.mk s.1) = f s.2 := List.map_id _
      rw [labelled_cons, List.map_append, ih, List.map_cons, List.flatMap_cons,
        List.map_map, hself]

theorem mem_labelled {sources : List (Nat × σ)} {x : Nat × α} :
    x ∈ labelled f sources ↔ ∃ s, (x.1, s) ∈ sources ∧ x.2 ∈ f s := by
  obtain ⟨k, a⟩ := x
  simp only [labelled, List.mem_flatMap, List.mem_map, Prod.mk.injEq]
  constructor
  · rintro ⟨⟨k', s⟩, hs, a', ha, rfl, rfl⟩
    exact ⟨s, hs, ha⟩
  · rintro ⟨s, hs, ha⟩
    exact ⟨(k, s), hs, a, ha, rfl, rfl⟩

/-- A label that no source has labels no event. -/
theorem filter_labelled_eq_nil {sources : List (Nat × σ)} {k : Nat}
    (hk : k ∉ sources.map Prod.fst) :
    (labelled f sources).filter (fun x => x.1 = k) = [] := by
  rw [List.filter_eq_nil_iff]
  rintro ⟨j, a⟩ hx
  obtain ⟨s, hs, _⟩ := (mem_labelled f).1 hx
  simp only [decide_eq_true_eq]
  rintro rfl
  exact hk (List.mem_map_of_mem (f := Prod.fst) hs)

/-- The events with the label of a source are the ones it emits. -/
theorem filter_labelled {sources : List (Nat × σ)}
    (hnodup : (sources.map Prod.fst).Nodup) {k : Nat} {s : σ} (hs : (k, s) ∈ sources) :
    (labelled f sources).filter (fun x => x.1 = k) = (f s).map (Prod.mk k) := by
  induction sources with
  | nil => exact absurd hs List.not_mem_nil
  | cons y sources ih =>
      rw [List.map_cons, List.nodup_cons] at hnodup
      rw [labelled_cons, List.filter_append]
      rcases List.mem_cons.1 hs with rfl | hs
      · rw [filter_labelled_eq_nil f hnodup.1, List.append_nil, List.filter_eq_self]
        simp
      · have hne : y.1 ≠ k := by
          intro heq
          exact hnodup.1 (List.mem_map.2 ⟨(k, s), hs, heq.symm⟩)
        rw [ih hnodup.2 hs, List.filter_eq_nil_iff.2 (by simp [hne]), List.nil_append]

end Labelled

/-- What a history yields, event by event, after one more event. -/
theorem flatMap_snoc {α : Type} (f : ε → List α) (l : List ε) (x : ε) :
    (l ++ [x]).flatMap f = l.flatMap f ++ f x := by
  rw [List.flatMap_append, List.flatMap_singleton]

end Candlestore.Lib
