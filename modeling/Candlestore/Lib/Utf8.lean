import Mathlib.Tactic.Common

/-!
# Text as UTF-8 bytes

The UTF-8 bytes of a list of characters, the checked decoder, and what a cut of
the bytes decodes to: a cut on a character boundary gives the characters before
it, and any other cut is not UTF-8.
-/

namespace Candlestore.Lib

/-- The UTF-8 bytes of the characters. -/
def utf8Bytes (cs : List Char) : List UInt8 := cs.flatMap String.utf8EncodeChar

/-- Checked decoding; `none` if the bytes are not UTF-8. -/
def fromUtf8 (bytes : List UInt8) : Option (List Char) :=
  bytes.toByteArray.utf8Decode?.map Array.toList

theorem toByteArray_inj {l l' : List UInt8} (h : l.toByteArray = l'.toByteArray) :
    l = l' := by
  have hdata := congrArg ByteArray.data h
  rw [List.data_toByteArray, List.data_toByteArray] at hdata
  exact congrArg Array.toList hdata

theorem fromUtf8_utf8Bytes (cs : List Char) : fromUtf8 (utf8Bytes cs) = some cs := by
  have hdecode : (utf8Bytes cs).toByteArray.utf8Decode? = some cs.toArray :=
    List.utf8Decode?_utf8Encode
  rw [fromUtf8, hdecode]
  rfl

/-- The decoder inverts the encoding and accepts nothing else. -/
theorem fromUtf8_eq_some_iff {bytes : List UInt8} {cs : List Char} :
    fromUtf8 bytes = some cs ↔ bytes = utf8Bytes cs := by
  constructor
  · intro h
    obtain ⟨chars, hdecode, rfl⟩ := Option.map_eq_some_iff.1 h
    have hsome : bytes.toByteArray.utf8Decode?.isSome = true := by
      rw [hdecode]
      rfl
    obtain ⟨m, hm⟩ := ByteArray.isSome_utf8Decode?_iff.1 hsome
    have hbytes : bytes = utf8Bytes m := toByteArray_inj hm
    rw [hbytes, fromUtf8_utf8Bytes, Option.some.injEq] at h
    rw [hbytes, h]
  · rintro rfl
    exact fromUtf8_utf8Bytes cs

@[simp] theorem utf8Bytes_nil : utf8Bytes [] = [] := rfl

theorem utf8Bytes_append (cs ds : List Char) :
    utf8Bytes (cs ++ ds) = utf8Bytes cs ++ utf8Bytes ds :=
  List.flatMap_append

theorem utf8Bytes_eq_nil {cs : List Char} (h : utf8Bytes cs = []) : cs = [] := by
  cases cs with
  | nil => rfl
  | cons c cs => exact absurd (List.append_eq_nil_iff.1 h).1 String.utf8EncodeChar_ne_nil

theorem length_utf8Bytes_singleton_le (c : Char) : (utf8Bytes [c]).length ≤ 4 := by
  rw [utf8Bytes, List.flatMap_singleton, String.length_utf8EncodeChar]
  exact c.utf8Size_le_four

/-- Characters whose bytes begin the bytes of others begin the others. -/
theorem isPrefix_of_utf8Bytes {cs ds : List Char} (h : utf8Bytes cs <+: utf8Bytes ds) :
    cs <+: ds := by
  obtain ⟨rest, hrest⟩ := h
  apply List.isPrefix_of_utf8Encode_append_eq_utf8Encode rest.toByteArray
  show (utf8Bytes cs).toByteArray ++ rest.toByteArray = (utf8Bytes ds).toByteArray
  rw [← List.toByteArray_append, hrest]

/-! ## Cutting the bytes -/

/-- The `n`-th byte begins a character, or `n` is the end. -/
def IsCharBoundary (cs : List Char) (n : Nat) : Prop :=
  ∃ i ≤ cs.length, (utf8Bytes (cs.take i)).length = n

instance (cs : List Char) (n : Nat) : Decidable (IsCharBoundary cs n) :=
  decidable_of_iff (∃ i, i < cs.length + 1 ∧ (utf8Bytes (cs.take i)).length = n)
    (exists_congr fun _ => and_congr_left' Nat.lt_succ_iff)

/-- Cutting at a boundary keeps the characters before it. -/
theorem fromUtf8_take_of_boundary {cs : List Char} {n : Nat} (h : IsCharBoundary cs n) :
    ∃ p, p <+: cs ∧ (utf8Bytes p).length = n ∧ fromUtf8 ((utf8Bytes cs).take n) =
      some p := by
  obtain ⟨i, _, hn⟩ := h
  refine ⟨cs.take i, List.take_prefix i cs, hn, ?_⟩
  have hsplit : utf8Bytes cs = utf8Bytes (cs.take i) ++ utf8Bytes (cs.drop i) := by
    rw [← utf8Bytes_append, List.take_append_drop]
  rw [hsplit, ← hn, List.take_left, fromUtf8_utf8Bytes]

/-- Cutting elsewhere leaves bytes that are not UTF-8. -/
theorem fromUtf8_take_of_not_boundary {cs : List Char} {n : Nat}
    (hn : n ≤ (utf8Bytes cs).length) (h : ¬IsCharBoundary cs n) :
    fromUtf8 ((utf8Bytes cs).take n) = none := by
  by_contra hsome
  obtain ⟨p, hp⟩ := Option.ne_none_iff_exists'.1 hsome
  have hbytes := fromUtf8_eq_some_iff.1 hp
  have hbegins : p <+: cs := by
    apply isPrefix_of_utf8Bytes
    rw [← hbytes]
    exact List.take_prefix n _
  refine h ⟨p.length, hbegins.length_le, ?_⟩
  rw [← List.prefix_iff_eq_take.1 hbegins, ← hbytes, List.length_take,
    Nat.min_eq_left hn]

/-- The longest beginning of the characters that fits into `n` bytes. -/
def LongestFit (n : Nat) (cs p : List Char) : Prop :=
  p <+: cs ∧ (utf8Bytes p).length ≤ n ∧
    ∀ q, q <+: cs → (utf8Bytes q).length ≤ n → q <+: p

theorem longestFit_self {n : Nat} {cs : List Char} (h : (utf8Bytes cs).length ≤ n) :
    LongestFit n cs cs :=
  ⟨List.prefix_refl cs, h, fun _ hq _ => hq⟩

/-- What fills the `n` bytes exactly is the longest fit. -/
theorem longestFit_of_length_eq {n : Nat} {cs p : List Char} (hp : p <+: cs)
    (hn : (utf8Bytes p).length = n) : LongestFit n cs p := by
  refine ⟨hp, Nat.le_of_eq hn, ?_⟩
  intro q hq hle
  rcases List.prefix_or_prefix_of_prefix hq hp with h | ⟨rest, rfl⟩
  · exact h
  · rw [utf8Bytes_append, List.length_append] at hle
    have hrest : rest = [] := utf8Bytes_eq_nil (List.length_eq_zero_iff.1 (by omega))
    subst hrest
    exact ⟨[], by rw [List.append_nil, List.append_nil]⟩

/-- Any character fits into four bytes. -/
theorem not_longestFit_nil {n : Nat} {cs : List Char} (hn : 4 ≤ n) (hcs : cs ≠ []) :
    ¬LongestFit n cs [] := by
  intro h
  cases cs with
  | nil => exact hcs rfl
  | cons c cs =>
      have hfit := h.2.2 [c] ⟨cs, rfl⟩
        (Nat.le_trans (length_utf8Bytes_singleton_le c) hn)
      cases List.prefix_nil.1 hfit

end Candlestore.Lib
