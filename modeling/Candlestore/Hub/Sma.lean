import Mathlib.Algebra.BigOperators.Group.List.Basic
import Candlestore.Candle
import Candlestore.Lib.Window
import Candlestore.Lib.Wrapping

/-!
# The rolling average

`RollingSma` keeps the last `period` closes in a fixed ring with their sum.
`Holds` relates it to the list of all closes it was given: over the exact
rationals its value is the mean of the last `period` of them.
-/

namespace Candlestore.Hub

open Lib

/-- `buf` is written in a circle; `sum` is that of the `filled` closes in it. -/
structure RollingSma (F : Type) where
  period : Nat
  buf : List F
  next : Nat
  filled : Nat
  sum : F
  deriving DecidableEq, Repr

namespace RollingSma

section Model

variable {F : Type} [F64 F]

/-- An average of no closes. -/
def new (period : Nat) : RollingSma F where
  period := period
  buf := List.replicate period (F64.lit 0)
  next := 0
  filled := 0
  sum := F64.lit 0

/-- The close that the next one replaces, or one more slot in use. -/
def makeRoom (sma : RollingSma F) : RollingSma F :=
  if sma.filled = sma.period then
    { sma with sum := sma.sum - sma.buf.getD sma.next (F64.lit 0) }
  else { sma with filled := sma.filled + 1 }

/-- The oldest close leaves the window once it is full. -/
def push (sma : RollingSma F) (close : F) : RollingSma F :=
  if sma.period = 0 then sma
  else
    { sma.makeRoom with
      sum := sma.makeRoom.sum + close
      buf := sma.buf.set sma.next close
      next := (sma.next + 1) % sma.period }

/-- The mean, once there are `period` closes. -/
def value (sma : RollingSma F) : Option F :=
  if 0 < sma.period ∧ sma.filled = sma.period then some (sma.sum / F64.lit sma.period)
  else none

end Model

/-- The state after the closes `closes`, oldest first.  Slot `i % period` holds
the `i`-th close as long as that is one of the last `period`. -/
structure Holds (sma : RollingSma ℚ) (closes : List ℚ) : Prop where
  next : 0 < sma.period → sma.next = closes.length % sma.period
  filled : sma.filled = min sma.period closes.length
  length : sma.buf.length = sma.period
  sum : sma.sum = (closes.rtake sma.period).sum
  slots : ∀ i < closes.length, closes.length ≤ i + sma.period →
    sma.buf[i % sma.period]? = closes[i]?

variable {sma : RollingSma ℚ} {closes : List ℚ}

theorem Holds.new (period : Nat) : Holds (RollingSma.new period) [] where
  next := fun _ => (Nat.zero_mod _).symm
  filled := (Nat.min_zero _).symm
  length := List.length_replicate
  sum := by
    rw [List.rtake_nil]
    rfl
  slots := fun _ hi => absurd hi (Nat.not_lt_zero _)

theorem period_makeRoom (sma : RollingSma ℚ) : sma.makeRoom.period = sma.period := by
  unfold makeRoom
  split <;> rfl

theorem period_push (sma : RollingSma ℚ) (close : ℚ) :
    (sma.push close).period = sma.period := by
  unfold push
  split
  · rfl
  · exact sma.period_makeRoom

/-- Before the first wrap nothing is replaced. -/
theorem Holds.makeRoom_of_lt (h : Holds sma closes) (hlt : closes.length < sma.period) :
    sma.makeRoom = { sma with filled := closes.length + 1 } := by
  have hfilled : sma.filled = closes.length :=
    h.filled.trans (Nat.min_eq_right (Nat.le_of_lt hlt))
  rw [makeRoom, if_neg (by omega), hfilled]

/-- After it the slot at `next` holds the oldest close of the window. -/
theorem Holds.makeRoom_of_ge (h : Holds sma closes) (hpos : 0 < sma.period)
    (hge : sma.period ≤ closes.length) :
    sma.makeRoom = { sma with sum := (closes.rtake (sma.period - 1)).sum } := by
  have hlt : closes.length - sma.period < closes.length := by omega
  have holdest : sma.buf[sma.next]? = some closes[closes.length - sma.period] := by
    have hslot := h.slots _ hlt (by omega)
    rw [← Nat.mod_eq_sub_mod hge, ← h.next hpos, List.getElem?_eq_getElem hlt] at hslot
    exact hslot
  have hsplit : closes.rtake sma.period =
      closes[closes.length - sma.period] :: closes.rtake (sma.period - 1) := by
    rw [List.rtake, List.drop_eq_getElem_cons hlt, List.rtake]
    congr 2
    omega
  rw [makeRoom, if_pos (h.filled.trans (Nat.min_eq_left hge)),
    List.getD_eq_getElem?_getD, holdest, h.sum, hsplit, List.sum_cons, Option.getD_some,
    add_sub_cancel_left]

/-- Either way the state is ready for one more close. -/
theorem Holds.makeRoom (h : Holds sma closes) (hpos : 0 < sma.period) :
    sma.makeRoom =
      { sma with
        filled := min sma.period (closes.length + 1)
        sum := (closes.rtake (sma.period - 1)).sum } := by
  rcases Nat.lt_or_ge closes.length sma.period with hlt | hge
  · rw [h.makeRoom_of_lt hlt, h.sum, rtake_of_length_le (by omega),
      rtake_of_length_le (by omega), Nat.min_eq_right (by omega)]
  · rw [h.makeRoom_of_ge hpos hge, h.filled, Nat.min_eq_left hge,
      Nat.min_eq_left (by omega)]

theorem Holds.push_eq (h : Holds sma closes) (hpos : 0 < sma.period) (close : ℚ) :
    sma.push close =
      { period := sma.period
        buf := sma.buf.set sma.next close
        next := (sma.next + 1) % sma.period
        filled := min sma.period (closes.length + 1)
        sum := (closes.rtake (sma.period - 1)).sum + close } := by
  rw [RollingSma.push, if_neg (by omega), h.makeRoom hpos]

/-- The new close overwrites the slot of the one that leaves the window and no
other. -/
theorem Holds.slots_push (h : Holds sma closes) (hpos : 0 < sma.period)
    (close : ℚ) {i : Nat} (hi : i < closes.length + 1)
    (hle : closes.length + 1 ≤ i + sma.period) :
    (sma.buf.set sma.next close)[i % sma.period]? = (closes ++ [close])[i]? := by
  have hnext := h.next hpos
  rcases Nat.lt_succ_iff_lt_or_eq.1 hi with hold | rfl
  · have hne : sma.next ≠ i % sma.period := by
      rw [hnext]
      exact (mod_ne_of_lt hold (by omega)).symm
    rw [List.getElem?_append_left hold, List.getElem?_set_ne hne,
      h.slots i hold (by omega)]
  · have hslot : sma.next < sma.buf.length := by
      rw [h.length, hnext]
      exact Nat.mod_lt _ hpos
    rw [List.getElem?_concat_length, ← hnext, List.getElem?_set_self hslot]

theorem Holds.push (h : Holds sma closes) (close : ℚ) :
    Holds (sma.push close) (closes ++ [close]) := by
  have hlen : (closes ++ [close]).length = closes.length + 1 := by
    rw [List.length_append, List.length_singleton]
  rcases Nat.eq_zero_or_pos sma.period with hzero | hpos
  · have hsame : sma.push close = sma := if_pos hzero
    have hsum := h.sum
    have hfilled := h.filled
    rw [hzero, List.rtake_zero] at hsum
    rw [hzero, Nat.zero_min] at hfilled
    rw [hsame]
    refine ⟨fun hpos => absurd hzero (Nat.ne_of_gt hpos), ?_, h.length, ?_, ?_⟩
    · rw [hzero, hfilled, Nat.zero_min]
    · rw [hzero, List.rtake_zero]
      exact hsum
    · intro i hi hle
      omega
  · rw [h.push_eq hpos close]
    refine ⟨fun _ => ?_, ?_, List.length_set.trans h.length, ?_, ?_⟩
    · rw [hlen, h.next hpos, Nat.mod_add_mod]
    · rw [hlen]
    · have hperiod : sma.period = sma.period - 1 + 1 := by omega
      show _ = ((closes ++ [close]).rtake sma.period).sum
      rw [hperiod, List.rtake_concat_succ, List.sum_append,
        List.sum_singleton, ← hperiod]
    · intro i hi hle
      rw [hlen] at hi hle
      exact h.slots_push hpos close hi hle

/-- The mean of the last `period` closes, once there are so many. -/
theorem Holds.value_eq (h : Holds sma closes) :
    sma.value = if 0 < sma.period ∧ sma.period ≤ closes.length then
      some ((closes.rtake sma.period).sum / sma.period) else none := by
  have hfull : sma.filled = sma.period ↔ sma.period ≤ closes.length := by
    rw [h.filled]
    omega
  simp only [RollingSma.value, hfull, h.sum]
  rfl

theorem Holds.value (h : Holds sma closes) {v : ℚ} (hvalue : sma.value = some v) :
    0 < sma.period ∧ sma.period ≤ closes.length ∧
      v = (closes.rtake sma.period).sum / sma.period := by
  rw [h.value_eq] at hvalue
  obtain ⟨⟨hpos, hle⟩, hv⟩ := Option.ite_none_right_eq_some.1 hvalue
  exact ⟨hpos, hle, (Option.some.inj hv).symm⟩

/-! ## Any sequence of closes -/

/-- Push the closes in their order. -/
def pushAll (sma : RollingSma ℚ) (closes : List ℚ) : RollingSma ℚ :=
  closes.foldl push sma

theorem Holds.pushAll {past : List ℚ} (h : Holds sma past) (closes : List ℚ) :
    Holds (sma.pushAll closes) (past ++ closes) := by
  induction closes generalizing sma past with
  | nil =>
      rw [List.append_nil]
      exact h
  | cons close closes ih =>
      have hrest := ih (h.push close)
      rw [List.append_assoc] at hrest
      exact hrest

theorem period_pushAll (sma : RollingSma ℚ) (closes : List ℚ) :
    (sma.pushAll closes).period = sma.period := by
  induction closes generalizing sma with
  | nil => rfl
  | cons close closes ih => exact (ih (sma.push close)).trans (sma.period_push close)

/-- The incremental average is the naive one.  For every period, zero included,
and every sequence of closes the value is the mean of the last `period` of them
once there are so many, and every push reads and writes a slot of the buffer. -/
theorem value_pushAll (period : Nat) (closes : List ℚ) :
    ((RollingSma.new period).pushAll closes).value =
      (if 0 < period ∧ period ≤ closes.length then
        some ((closes.rtake period).sum / period) else none) ∧
    ∀ pre close post, closes = pre ++ close :: post →
      period = 0 ∨ ((RollingSma.new period).pushAll pre).next <
        ((RollingSma.new period).pushAll pre).buf.length := by
  have hperiod : ∀ cs, ((RollingSma.new period).pushAll cs).period = period := fun cs =>
    period_pushAll (RollingSma.new period) cs
  refine ⟨?_, ?_⟩
  · have hvalue := ((Holds.new period).pushAll closes).value_eq
    rwa [hperiod] at hvalue
  · intro pre _ _ _
    have h := (Holds.new period).pushAll pre
    rcases Nat.eq_zero_or_pos period with hzero | hpos
    · exact Or.inl hzero
    · right
      rw [h.length, h.next (by rwa [hperiod]), hperiod]
      exact Nat.mod_lt _ hpos

end RollingSma

end Candlestore.Hub
