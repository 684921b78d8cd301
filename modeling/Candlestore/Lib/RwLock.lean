import Mathlib.Data.Finset.Basic

/-!
# Readers-writer locks

A lock records who reads and who writes under it; that a writer excludes every
reader is part of the type.  `held` is the view of one thread, and taking or
releasing the lock changes the view of the thread that does it and of no other.

Deadlock is excluded by lock order.  If whoever waits for a lock holds only locks
of lower rank than the ones held by whoever it waits for, a chain of waiting
threads cannot close.
-/

namespace Candlestore.Lib

/-- What a thread holds of a lock. -/
inductive Access where
  | none
  | shared
  | exclusive
  deriving DecidableEq, Repr

/-- Any number of readers or one writer, never both. -/
structure RwLock (τ : Type) where
  readers : Finset τ
  writer : Option τ
  excludes : writer = none ∨ readers = ∅

namespace RwLock

variable {τ : Type}

/-- Nobody holds the lock. -/
def free : RwLock τ := ⟨∅, none, .inl rfl⟩

variable [DecidableEq τ]

/-- How `t` holds the lock. -/
def held (l : RwLock τ) (t : τ) : Access :=
  if l.writer = some t then .exclusive else if t ∈ l.readers then .shared else .none

/-- Take the lock for reading. -/
def read (l : RwLock τ) (t : τ) : Option (RwLock τ) :=
  if h : l.writer = none then some ⟨insert t l.readers, l.writer, .inl h⟩ else none

/-- Take the lock for writing. -/
def write (l : RwLock τ) (t : τ) : Option (RwLock τ) :=
  if h : l.writer = none ∧ l.readers = ∅ then some ⟨l.readers, some t, .inr h.2⟩
  else none

/-- `t` lets go of whatever it holds. -/
def release (l : RwLock τ) (t : τ) : RwLock τ where
  readers := l.readers.erase t
  writer := if l.writer = some t then none else l.writer
  excludes := by
    rcases l.excludes with h | h
    · left
      rw [h]
      exact ite_self _
    · right
      rw [h, Finset.erase_empty]

variable {l l' : RwLock τ} {t u : τ}

theorem held_free (t : τ) : (free : RwLock τ).held t = .none := by
  simp [held, free]

theorem held_read (h : l.read t = some l') :
    l'.held = Function.update l.held t .shared := by
  unfold read at h
  split at h
  · next hw =>
    cases h
    funext u
    by_cases hu : u = t
    · subst hu
      simp [held, hw]
    · simp [held, hw, hu]
  · cases h

theorem held_write (h : l.write t = some l') :
    l'.held = Function.update l.held t .exclusive := by
  unfold write at h
  split at h
  · next hw =>
    cases h
    funext u
    by_cases hu : u = t
    · subst hu
      simp [held]
    · simp [held, hw.1, hu, Ne.symm hu]
  · cases h

theorem held_release : (l.release t).held = Function.update l.held t .none := by
  funext u
  by_cases hu : u = t
  · subst hu
    by_cases hw : l.writer = some u <;> simp [held, release, hw]
  · by_cases hw : l.writer = some t
    · simp [held, release, hw, hu, Ne.symm hu]
    · simp [held, release, hw, hu]

/-- A writer is alone. -/
theorem held_eq_none_of_exclusive (ht : l.held t = .exclusive) (hu : u ≠ t) :
    l.held u = .none := by
  have hw : l.writer = some t := by
    by_contra hne
    unfold held at ht
    rw [if_neg hne] at ht
    split at ht <;> cases ht
  have hr : l.readers = ∅ := by
    rcases l.excludes with h | h
    · rw [hw] at h
      cases h
    · exact h
  simp [held, hw, hr, Ne.symm hu]

/-- Whoever cannot read waits for a writer. -/
theorem exists_exclusive_of_read (h : l.read t = none) : ∃ u, l.held u = .exclusive := by
  unfold read at h
  split at h
  · cases h
  · next hw =>
    obtain ⟨u, hu⟩ := Option.ne_none_iff_exists'.1 hw
    exact ⟨u, by simp [held, hu]⟩

/-- Whoever cannot write waits for a reader or a writer. -/
theorem exists_held_of_write (h : l.write t = none) : ∃ u, l.held u ≠ .none := by
  unfold write at h
  split at h
  · cases h
  · next hw =>
    by_cases hwriter : l.writer = none
    · have hr : l.readers ≠ ∅ := fun hr => hw ⟨hwriter, hr⟩
      obtain ⟨u, hu⟩ := Finset.nonempty_iff_ne_empty.2 hr
      exact ⟨u, by simp [held, hwriter, hu]⟩
    · obtain ⟨u, hu⟩ := Option.ne_none_iff_exists'.1 hwriter
      exact ⟨u, by simp [held, hu]⟩

end RwLock

/-- Lock order excludes deadlock: every waiting thread waits for one of higher
rank, so some thread that is not done can move. -/
theorem exists_enabled_of_lock_order {τ : Type} {active enabled : τ → Prop}
    (rank : τ → Nat) (bound : Nat) (hrank : ∀ t, rank t ≤ bound)
    (hwaits : ∀ t, active t → enabled t ∨ ∃ u, active u ∧ rank t < rank u)
    {t : τ} (ht : active t) : ∃ u, active u ∧ enabled u := by
  -- Induction on how far below the bound the thread stands.
  induction hn : bound - rank t using Nat.strong_induction_on generalizing t with
  | _ n ih =>
      rcases hwaits t ht with hgo | ⟨u, hu, hlt⟩
      · exact ⟨t, ht, hgo⟩
      · have := hrank u
        exact ih (bound - rank u) (by omega) hu rfl

end Candlestore.Lib
