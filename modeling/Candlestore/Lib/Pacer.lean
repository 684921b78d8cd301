import Mathlib.Data.List.Chain
import Candlestore.Lib.System

/-!
# Paced loops

A loop keeps a schedule: every iteration has a tick, ticks are at least `interval`
apart, and an iteration goes on no earlier than its tick.  An iteration that begins
late may go on at once, but its tick is never more than `slack` behind the clock
it began at.  Such a loop is bounded over every window of time: what it makes up
for is at most the slack.
-/

namespace Candlestore.Lib

/-- One iteration: the clock when it began, its tick, and the clock when it went on. -/
structure Beat where
  now : Nat
  tick : Nat
  time : Nat
  deriving DecidableEq, Repr

/-- The iterations of a loop, the first one first. -/
structure Paced (interval slack : Nat) (beats : List Beat) : Prop where
  due : ∀ b ∈ beats, b.tick ≤ b.time
  synced : ∀ b ∈ beats, b.now ≤ b.tick + slack
  chain : beats.IsChain fun a b => a.time ≤ b.now ∧ a.tick + interval ≤ b.tick

namespace Paced

variable {interval slack : Nat} {beats : List Beat}

theorem nil : Paced interval slack [] where
  due := fun _ h => by cases h
  synced := fun _ h => by cases h
  chain := .nil

theorem snoc (h : Paced interval slack beats) {b : Beat} (hdue : b.tick ≤ b.time)
    (hsynced : b.now ≤ b.tick + slack)
    (hnext : ∀ a, beats.getLast? = some a → a.time ≤ b.now ∧
      a.tick + interval ≤ b.tick) : Paced interval slack (beats ++ [b]) where
  due := by
    intro a ha
    rcases List.mem_append.1 ha with ha | ha
    · exact h.due a ha
    · exact List.mem_singleton.1 ha ▸ hdue
  synced := by
    intro a ha
    rcases List.mem_append.1 ha with ha | ha
    · exact h.synced a ha
    · exact List.mem_singleton.1 ha ▸ hsynced
  chain := by
    rw [List.isChain_append]
    refine ⟨h.chain, .singleton b, ?_⟩
    intro a ha b' hb'
    cases hb'
    exact hnext a ha

/-- Two iterations are as many intervals apart on the schedule as there are between
them. -/
theorem ticks (h : Paced interval slack beats) {i j : Nat} {a b : Beat} (hij : i ≤ j)
    (ha : beats[i]? = some a) (hb : beats[j]? = some b) :
    a.tick + (j - i) * interval ≤ b.tick := by
  obtain ⟨d, rfl⟩ := Nat.exists_eq_add_of_le hij
  induction d generalizing b with
  | zero =>
      rw [Nat.add_zero, ha] at hb
      cases hb
      rw [Nat.add_zero, Nat.sub_self, Nat.zero_mul]
      exact Nat.le_refl _
  | succ d ih =>
      have hlt := (List.getElem?_eq_some_iff.1 hb).1
      have hmid := List.getElem?_eq_getElem
        (Nat.lt_of_succ_lt hlt : i + d < beats.length)
      have hstep := (List.isChain_iff_getElem.1 h.chain (i + d) hlt).2
      have hbefore := ih (Nat.le_add_right i d) hmid
      rw [List.getElem?_eq_getElem hlt] at hb
      cases hb
      have hd : i + d - i = d := by omega
      have hd' : i + (d + 1) - i = d + 1 := by omega
      rw [hd] at hbefore
      rw [hd', Nat.succ_mul]
      show _ ≤ beats[i + d + 1].tick
      omega

/-- No iteration goes on before as many intervals have passed as iterations before it. -/
theorem since_first (h : Paced interval slack beats) {j : Nat} {a b : Beat}
    (ha : beats[0]? = some a) (hb : beats[j]? = some b) :
    a.tick + j * interval ≤ b.time := by
  have hticks := h.ticks (Nat.zero_le j) ha hb
  have hdue := h.due b (List.mem_of_getElem? hb)
  rw [Nat.sub_zero] at hticks
  omega

/-- In a window of time there are at most as many iterations as intervals, and the slack
on top. -/
theorem window (h : Paced interval slack beats) {i j : Nat} {a b : Beat} (hij : i < j)
    (ha : beats[i]? = some a) (hb : beats[j]? = some b) :
    a.time + (j - i - 1) * interval ≤ b.time + slack := by
  have hlt : i + 1 < beats.length := by
    have := (List.getElem?_eq_some_iff.1 hb).1
    omega
  have hnext := List.getElem?_eq_getElem hlt
  have hsynced := h.synced _ (List.mem_of_getElem? hnext)
  have hstep := (List.isChain_iff_getElem.1 h.chain i hlt).1
  have hticks := h.ticks (Nat.succ_le_of_lt hij) hnext hb
  have hdue := h.due b (List.mem_of_getElem? hb)
  obtain ⟨hi, rfl⟩ := List.getElem?_eq_some_iff.1 ha
  rw [Nat.sub_sub]
  rw [Nat.succ_eq_add_one] at hticks
  omega

end Paced

end Candlestore.Lib
