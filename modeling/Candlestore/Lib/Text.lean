import Mathlib.Data.Int.Basic
import Mathlib.Tactic.Common

/-!
# Decimal text

Strings are lists of characters.  This file has the decimal forms of integers
with their checked parsers, and splitting at the first or the last occurrence
of a separator.
-/

namespace Candlestore.Lib

/-! ## Splitting at a separator -/

/-- Split at the first occurrence of `c`, dropping it. -/
def splitOnce (c : Char) : List Char → Option (List Char × List Char)
  | [] => none
  | x :: xs =>
      if x = c then some ([], xs)
      else (splitOnce c xs).map (fun p => (x :: p.1, p.2))

/-- Split at the last occurrence of `c`, dropping it. -/
def rsplitOnce (c : Char) (cs : List Char) : Option (List Char × List Char) :=
  (splitOnce c cs.reverse).map (fun p => (p.2.reverse, p.1.reverse))

theorem splitOnce_append (c : Char) (xs ys : List Char) (h : c ∉ xs) :
    splitOnce c (xs ++ c :: ys) = some (xs, ys) := by
  induction xs with
  | nil => simp [splitOnce]
  | cons x xs ih =>
      have hx : x ≠ c := fun e => h (e ▸ List.mem_cons_self)
      have hxs : c ∉ xs := fun hm => h (List.mem_cons_of_mem x hm)
      rw [List.cons_append, splitOnce, if_neg hx, ih hxs]
      rfl

theorem splitOnce_eq_none (c : Char) (xs : List Char) (h : c ∉ xs) :
    splitOnce c xs = none := by
  induction xs with
  | nil => rfl
  | cons x xs ih =>
      have hx : x ≠ c := fun e => h (e ▸ List.mem_cons_self)
      rw [splitOnce, if_neg hx, ih (fun hm => h (List.mem_cons_of_mem x hm))]
      rfl

theorem rsplitOnce_append (c : Char) (xs ys : List Char) (h : c ∉ ys) :
    rsplitOnce c (xs ++ c :: ys) = some (xs, ys) := by
  have hrev : (xs ++ c :: ys).reverse = ys.reverse ++ c :: xs.reverse := by simp
  rw [rsplitOnce, hrev, splitOnce_append c _ _ (by simpa using h)]
  simp

theorem rsplitOnce_eq_none (c : Char) (xs : List Char) (h : c ∉ xs) :
    rsplitOnce c xs = none := by
  rw [rsplitOnce, splitOnce_eq_none c _ (by simpa using h)]
  rfl

/-! ## Decimal numbers -/

/-- Decimal digits of a natural number. -/
def showNat (n : Nat) : List Char := Nat.toDigits 10 n

/-- Decimal form of an integer, with a leading `-` below zero. -/
def showInt : Int → List Char
  | .ofNat n => showNat n
  | .negSucc n => '-' :: showNat (n + 1)

/-- A non-empty string of decimal digits. -/
def parseDigits (cs : List Char) : Option Nat :=
  if cs ≠ [] ∧ cs.all Char.isDigit then some (Nat.ofDigitChars 10 cs 0) else none

/-- Checked signed parse: an optional sign, digits, and the bounds `[lo, hi]`. -/
def parseSigned (lo hi : Int) : List Char → Option Int
  | '-' :: ds =>
      (parseDigits ds).bind fun n => if lo ≤ -(n : Int) then some (-(n : Int)) else none
  | '+' :: ds =>
      (parseDigits ds).bind fun n => if (n : Int) ≤ hi then some (n : Int) else none
  | ds => (parseDigits ds).bind fun n => if (n : Int) ≤ hi then some (n : Int) else none

/-- Checked unsigned parse: an optional `+`, digits, and the bound `hi`. -/
def parseUnsigned (hi : Nat) : List Char → Option Nat
  | '+' :: ds => (parseDigits ds).bind fun n => if n ≤ hi then some n else none
  | ds => (parseDigits ds).bind fun n => if n ≤ hi then some n else none

theorem isDigit_of_mem_showNat (n : Nat) (c : Char) (h : c ∈ showNat n) :
    c.isDigit = true :=
  Nat.isDigit_of_mem_toDigits (by decide) (by decide) h

theorem showNat_ne_nil (n : Nat) : showNat n ≠ [] := Nat.toDigits_ne_nil

theorem not_mem_showNat (n : Nat) (c : Char) (hc : c.isDigit = false) :
    c ∉ showNat n := by
  intro h
  rw [isDigit_of_mem_showNat n c h] at hc
  exact Bool.noConfusion hc

theorem not_mem_showInt (z : Int) (c : Char) (hc : c.isDigit = false) (hsign : c ≠ '-') :
    c ∉ showInt z := by
  cases z with
  | ofNat n => exact not_mem_showNat n c hc
  | negSucc n =>
      intro h
      rcases List.mem_cons.1 h with h | h
      · exact hsign h
      · exact not_mem_showNat (n + 1) c hc h

theorem parseDigits_showNat (n : Nat) : parseDigits (showNat n) = some n := by
  have hall : (showNat n).all Char.isDigit = true := by
    rw [List.all_eq_true]
    exact fun c hc => isDigit_of_mem_showNat n c hc
  rw [parseDigits, if_pos ⟨showNat_ne_nil n, hall⟩, showNat,
    Nat.ofDigitChars_ten_toDigits]

/-- Any foreign character makes a digit string unreadable. -/
theorem parseDigits_eq_none (cs : List Char) (c : Char) (hc : c ∈ cs)
    (hdigit : c.isDigit = false) : parseDigits cs = none := by
  rw [parseDigits, if_neg]
  rintro ⟨_, hall⟩
  have := List.all_eq_true.1 hall c hc
  rw [hdigit] at this
  exact Bool.noConfusion this

/-- The digits of a number never start with a sign. -/
private theorem showNat_cases (n : Nat) :
    ∃ d ds, showNat n = d :: ds ∧ d ≠ '-' ∧ d ≠ '+' := by
  cases h : showNat n with
  | nil => exact absurd h (showNat_ne_nil n)
  | cons d ds =>
      have hd : d.isDigit = true := isDigit_of_mem_showNat n d (h ▸ List.mem_cons_self)
      refine ⟨d, ds, rfl, ?_, ?_⟩
      · rintro rfl
        exact absurd hd (by decide)
      · rintro rfl
        exact absurd hd (by decide)

/-- Without a leading sign both parsers read plain digits. -/
private theorem parseSigned_unsigned (lo hi : Int) (d : Char) (ds : List Char)
    (hminus : d ≠ '-') (hplus : d ≠ '+') :
    parseSigned lo hi (d :: ds) =
      (parseDigits (d :: ds)).bind fun n => if (n : Int) ≤ hi then some (n : Int)
        else none := by
  unfold parseSigned
  split
  · rename_i heq
    exact absurd (List.cons.inj heq).1 hminus
  · rename_i heq
    exact absurd (List.cons.inj heq).1 hplus
  · rfl

/-- A printed integer reads back, within the bounds of the type. -/
theorem parseSigned_showInt (lo hi z : Int) (hlo : lo ≤ 0) (hhi : 0 ≤ hi) :
    parseSigned lo hi (showInt z) = if lo ≤ z ∧ z ≤ hi then some z else none := by
  cases z with
  | ofNat n =>
      obtain ⟨d, ds, hshow, hminus, hplus⟩ := showNat_cases n
      rw [showInt, hshow, parseSigned_unsigned lo hi d ds hminus hplus, ← hshow,
        parseDigits_showNat, Option.bind_some]
      rw [Int.ofNat_eq_natCast]
      by_cases hle : (n : Int) ≤ hi
      · rw [if_pos hle, if_pos ⟨by omega, hle⟩]
      · rw [if_neg hle, if_neg (fun h => hle h.2)]
  | negSucc n =>
      have hneg : -((n + 1 : Nat) : Int) = Int.negSucc n := by omega
      rw [showInt, parseSigned, parseDigits_showNat, Option.bind_some, hneg]
      by_cases hle : lo ≤ Int.negSucc n
      · rw [if_pos hle, if_pos ⟨hle, by omega⟩]
      · rw [if_neg hle, if_neg (fun h => hle h.1)]

theorem parseUnsigned_showNat (hi n : Nat) (hn : n ≤ hi) :
    parseUnsigned hi (showNat n) = some n := by
  obtain ⟨d, ds, hshow, _, hplus⟩ := showNat_cases n
  unfold parseUnsigned
  split
  · rename_i heq
    rw [hshow] at heq
    exact absurd (List.cons.inj heq).1 hplus
  · rw [parseDigits_showNat, Option.bind_some, if_pos hn]

/-- A number followed by a dash is not a number. -/
theorem parseSigned_dash (lo hi z : Int) (rest : List Char) :
    parseSigned lo hi (showInt z ++ '-' :: rest) = none := by
  have hdash : Char.isDigit '-' = false := by decide
  cases z with
  | ofNat n =>
      obtain ⟨d, ds, hshow, hminus, hplus⟩ := showNat_cases n
      rw [showInt, hshow, List.cons_append, parseSigned_unsigned lo hi d _ hminus hplus,
        parseDigits_eq_none _ '-' (by simp) hdash, Option.bind_none]
  | negSucc n =>
      rw [showInt, List.cons_append, parseSigned,
        parseDigits_eq_none _ '-' (by simp) hdash, Option.bind_none]

theorem showNat_inj {m n : Nat} (h : showNat m = showNat n) : m = n := by
  have hm := parseDigits_showNat m
  rw [h, parseDigits_showNat, Option.some.injEq] at hm
  exact hm.symm

/-- Bounds wide enough for `z` read it back. -/
private theorem parseSigned_wide (z : Int) (b : Nat) (hb : z.natAbs ≤ b) :
    parseSigned (-b) b (showInt z) = some z := by
  rw [parseSigned_showInt _ _ z (by omega) (by omega), if_pos (by omega)]

theorem showInt_inj {a b : Int} (h : showInt a = showInt b) : a = b := by
  have ha := parseSigned_wide a (a.natAbs + b.natAbs) (by omega)
  rw [h, parseSigned_wide b _ (by omega), Option.some.injEq] at ha
  exact ha.symm

theorem showInt_ne_dash (a b : Int) (rest : List Char) :
    showInt a ≠ showInt b ++ '-' :: rest := by
  intro h
  have ha := parseSigned_wide a a.natAbs (Nat.le_refl _)
  rw [h, parseSigned_dash] at ha
  cases ha

end Candlestore.Lib
