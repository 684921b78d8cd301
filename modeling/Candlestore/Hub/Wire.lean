import Mathlib.Data.List.TakeWhile
import Candlestore.Hub.Executor
import Candlestore.Lib.Utf8

/-!
# The signal record

A `Signal` crosses the ring from the strategy to the executor as a fixed record.
Its symbol is a buffer of 24 bytes, filled with the UTF-8 bytes of the symbol and
read back up to the first zero byte.  `try_new` refuses a symbol of more than 23
bytes and `new` cuts it there; neither looks for a zero byte, and `new` does not
look for a character boundary.

The symbol is read back exactly if it has no zero byte (`tryNew_decodes_iff`),
and a cut symbol is read back as its longest beginning exactly if the cut falls
on a character boundary (`symbolStr_new_iff`); otherwise it is read back empty.
-/

namespace Candlestore.Hub.Wire

open Lib Matching

/-- `MAX_SIGNAL_SYMBOL_LEN`: one byte of the 24 is the terminating zero. -/
def maxSignalSymbolLen : Nat := 23

/-- Why `try_new` refuses to build a signal. -/
inductive SignalError (F : Type) where
  | symbolTooLong (len max : Nat)
  | nonFiniteField (qty price : F)
  deriving DecidableEq, Repr

/-- The record; the padding is left out. -/
structure Signal (F : Type) where
  ts : Int
  symbol : Vector UInt8 24
  side : UInt8
  qty : F
  price : F
  strategy : UInt32

/-- `side as u8`. -/
def sideByte : Side → UInt8
  | .buy => 0
  | .sell => 1

/-- `buf[..bytes.len()].copy_from_slice(bytes)`, for no more bytes than `buf` has. -/
def copyFromSlice {n : Nat} (buf : Vector UInt8 n) (bytes : List UInt8) :
    Vector UInt8 n :=
  Vector.ofFn fun i => bytes.getD i buf[i]

namespace Signal

variable {F : Type}

/-- The record of the arguments with `bytes` in a buffer of zeros. -/
def ofBytes (ts : Int) (bytes : List UInt8) (side : Side) (qty price : F)
    (strategy : UInt32) : Signal F where
  ts := ts
  symbol := copyFromSlice (Vector.replicate 24 0) bytes
  side := sideByte side
  qty := qty
  price := price
  strategy := strategy

/-- `Signal::try_new`. -/
def tryNew [F64 F] (ts : Int) (symbol : Symbol) (side : Side) (qty price : F)
    (strategy : UInt32) : Except (SignalError F) (Signal F) :=
  let bytes := utf8Bytes symbol
  if bytes.length > maxSignalSymbolLen then
    .error (.symbolTooLong bytes.length maxSignalSymbolLen)
  else if !F64.isFinite qty || !F64.isFinite price then
    .error (.nonFiniteField qty price)
  else .ok (ofBytes ts bytes side qty price strategy)

/-- `Signal::new`: a longer symbol is cut, with a warning. -/
def new (ts : Int) (symbol : Symbol) (side : Side) (qty price : F) (strategy : UInt32) :
    Signal F :=
  let bytes := utf8Bytes symbol
  let len := min bytes.length maxSignalSymbolLen
  ofBytes ts (bytes.take len) side qty price strategy

/-- `Signal::symbol_str`.  `findIdx` is the length, 24, if no byte is zero. -/
def symbolStr (s : Signal F) : Symbol :=
  let bytes := s.symbol.toList
  let stop := bytes.findIdx (· == 0)
  (fromUtf8 (bytes.take stop)).getD []

/-- `Signal::side()`. -/
def decodeSide (s : Signal F) : Side := if s.side = 0 then .buy else .sell

/-- What the executor acts on. -/
def forExecutor (s : Signal F) : Hub.Signal F := ⟨s.decodeSide, s.qty⟩

end Signal

/-! ## Reading the buffer back -/

section Decode

variable {F : Type} {ts : Int} {side : Side} {qty price : F} {strategy : UInt32}

/-- The buffer is the bytes and then zeros. -/
theorem toList_copyFromSlice {n : Nat} {bytes : List UInt8} (h : bytes.length ≤ n) :
    (copyFromSlice (Vector.replicate n 0) bytes).toList =
      bytes ++ List.replicate (n - bytes.length) 0 := by
  apply List.ext_getElem
  · rw [Vector.length_toList, List.length_append, List.length_replicate]
    omega
  · intro i hi _
    simp only [copyFromSlice, Vector.getElem_toList, Vector.getElem_ofFn]
    rcases Nat.lt_or_ge i bytes.length with hlt | hge
    · rw [List.getElem_append_left hlt, List.getD_eq_getElem?_getD,
        List.getElem?_eq_getElem hlt, Option.getD_some]
    · rw [List.getElem_append_right hge, List.getElem_replicate,
        List.getD_eq_getElem?_getD, List.getElem?_eq_none hge, Option.getD_none]
      exact Vector.getElem_replicate _

/-- What precedes the first zero of the bytes and a zero behind them. -/
theorem takeWhile_append_replicate (bytes : List UInt8) (n : Nat) :
    (bytes ++ List.replicate n 0).takeWhile (· != 0) = bytes.takeWhile (· != 0) := by
  have hzeros : (List.replicate n (0 : UInt8)).takeWhile (· != 0) = [] := by
    cases n with
    | zero => rfl
    | succ n => exact List.takeWhile_cons_of_neg (by decide)
  rw [List.takeWhile_append, hzeros, List.append_nil]
  split
  · next hall => exact ((List.takeWhile_prefix _).eq_of_length hall).symm
  · rfl

theorem decodeSide_ofBytes (bytes : List UInt8) :
    (Signal.ofBytes ts bytes side qty price strategy).decodeSide = side := by
  cases side <;> rfl

/-- The executor sees the side and the quantity that the strategy gave. -/
theorem forExecutor_new (symbol : Symbol) :
    (Signal.new ts symbol side qty price strategy).forExecutor = ⟨side, qty⟩ := by
  rw [Signal.forExecutor, Signal.new, decodeSide_ofBytes]
  rfl

/-- Up to 24 bytes are read back up to the first zero. -/
theorem symbolStr_ofBytes {bytes : List UInt8} (h : bytes.length ≤ 24) :
    (Signal.ofBytes ts bytes side qty price strategy).symbolStr =
      (fromUtf8 (bytes.takeWhile (· != 0))).getD [] := by
  have hstop : ∀ l : List UInt8, l.take (l.findIdx (· == 0)) = l.takeWhile (· != 0) := by
    intro l
    rw [List.takeWhile_eq_take_findIdx_not]
    simp only [bne, Bool.not_not]
  show (fromUtf8 ((copyFromSlice (Vector.replicate 24 0) bytes).toList.take
    ((copyFromSlice (Vector.replicate 24 0) bytes).toList.findIdx (· == 0)))).getD [] = _
  rw [hstop, toList_copyFromSlice h, takeWhile_append_replicate]

theorem takeWhile_of_zero_not_mem {bytes : List UInt8} (h : 0 ∉ bytes) :
    bytes.takeWhile (· != 0) = bytes := by
  rw [List.takeWhile_eq_self_iff]
  intro b hb
  rw [bne_iff_ne]
  exact fun hzero => h (hzero ▸ hb)

/-- A symbol that fits is read back exactly if it has no zero byte. -/
theorem symbolStr_eq_iff {symbol : Symbol} (h : (utf8Bytes symbol).length ≤ 24) :
    (Signal.ofBytes ts (utf8Bytes symbol) side qty price strategy).symbolStr = symbol ↔
      0 ∉ utf8Bytes symbol := by
  rw [symbolStr_ofBytes h]
  constructor
  · intro hread hzero
    cases hdecode : fromUtf8 ((utf8Bytes symbol).takeWhile (· != 0)) with
    | none =>
        rw [hdecode, Option.getD_none] at hread
        rw [← hread] at hzero
        exact absurd hzero List.not_mem_nil
    | some cs =>
        -- what was read are the bytes before the first zero, so all of them
        rw [hdecode, Option.getD_some] at hread
        rw [hread, fromUtf8_eq_some_iff] at hdecode
        rw [← hdecode] at hzero
        exact absurd (List.mem_takeWhile_imp hzero) (by decide)
  · intro hzero
    rw [takeWhile_of_zero_not_mem hzero, fromUtf8_utf8Bytes, Option.getD_some]

/-- Without a zero byte `new` is read back as what its cut decodes to. -/
theorem symbolStr_new {symbol : Symbol} (hzero : 0 ∉ utf8Bytes symbol) :
    (Signal.new ts symbol side qty price strategy).symbolStr =
      (fromUtf8 ((utf8Bytes symbol).take 23)).getD [] := by
  have hcut : (utf8Bytes symbol).take
      (min (utf8Bytes symbol).length maxSignalSymbolLen) =
      (utf8Bytes symbol).take 23 := by
    rw [Nat.min_comm]
    exact List.take_eq_take_min.symm
  have hlen : ((utf8Bytes symbol).take 23).length ≤ 24 :=
    Nat.le_trans (List.length_take_le _ _) (by decide)
  rw [Signal.new, hcut, symbolStr_ofBytes hlen,
    takeWhile_of_zero_not_mem fun h => hzero (List.mem_of_mem_take h)]

end Decode

/-! ## Round trips -/

section RoundTrip

variable {F : Type}

/-- A symbol with a zero byte is accepted and read back as what precedes it. -/
theorem tryNew_accepts_zero_byte :
    let symbol : Symbol := ['A', Char.ofNat 0, 'B']
    ∃ s : Signal ℚ, Signal.tryNew 0 symbol .buy 1 0 0 = .ok s ∧ s.symbolStr = ['A'] := by
  intro symbol
  refine ⟨_, rfl, ?_⟩
  have hbytes : utf8Bytes symbol = [65, 0, 66] := by decide
  have hread : (utf8Bytes symbol).takeWhile (· != 0) = utf8Bytes ['A'] := by decide
  rw [symbolStr_ofBytes (by rw [hbytes]; decide), hread, fromUtf8_utf8Bytes,
    Option.getD_some]

/-- Strict encoding is decodable except for zero bytes.  What `try_new` accepts is
read back as the given symbol, side and fields exactly if the symbol has no zero
byte. -/
theorem tryNew_decodes_iff [F64 F] {ts : Int} {symbol : Symbol} {side : Side}
    {qty price : F} {strategy : UInt32} {s : Signal F}
    (hok : Signal.tryNew ts symbol side qty price strategy = .ok s) :
    (s.symbolStr = symbol ∧ s.decodeSide = side ∧ s.ts = ts ∧ s.qty = qty ∧
      s.price = price ∧
      s.strategy = strategy) ↔ 0 ∉ utf8Bytes symbol := by
  unfold Signal.tryNew at hok
  dsimp only at hok
  split at hok
  · cases hok
  · next hfits =>
      split at hok
      · cases hok
      · have hlen : (utf8Bytes symbol).length ≤ 24 :=
          Nat.le_succ_of_le (Nat.not_lt.1 hfits)
        cases hok
        rw [symbolStr_eq_iff hlen, decodeSide_ofBytes]
        exact and_iff_left ⟨rfl, rfl, rfl, rfl, rfl⟩

/-- A symbol with a character of two bytes. -/
theorem tryNew_decodes_iff_accent :
    ∃ s : Signal ℚ, Signal.tryNew 7 ['é', ':', '1', 'm'] .sell 2 3 9 = .ok s ∧
      s.symbolStr = ['é', ':', '1', 'm'] ∧ s.decodeSide = .sell := by
  obtain ⟨s, hok⟩ : ∃ s : Signal ℚ,
      Signal.tryNew 7 ['é', ':', '1', 'm'] .sell 2 3 9 = .ok s := ⟨_, rfl⟩
  have h := (tryNew_decodes_iff hok).2 (by decide)
  exact ⟨s, hok, h.1, h.2.1⟩

/-- A symbol of 24 bytes whose last character has two: the cut is inside it, and
the symbol is read back empty. -/
theorem new_reads_back_empty :
    let symbol : Symbol := List.replicate 22 'X' ++ ['é']
    0 ∉ utf8Bytes symbol ∧ (Signal.new 0 symbol .buy 1 0 0 : Signal ℚ).symbolStr = [] ∧
      ¬LongestFit 23 symbol [] := by
  intro symbol
  have hzero : 0 ∉ utf8Bytes symbol := by decide
  refine ⟨hzero, ?_, not_longestFit_nil (by decide) (by decide)⟩
  rw [symbolStr_new hzero, fromUtf8_take_of_not_boundary (by decide) (by decide),
    Option.getD_none]

/-- Lossy encoding keeps the longest readable beginning exactly if the symbol fits
or the cut falls on a character boundary.  A symbol that fits is read back as it
is, and one that is cut inside a character is read back empty. -/
theorem symbolStr_new_iff (ts : Int) (symbol : Symbol) (side : Side) (qty price : F)
    (strategy : UInt32) (hzero : 0 ∉ utf8Bytes symbol) :
    let str := (Signal.new ts symbol side qty price strategy).symbolStr
    let readable := (utf8Bytes symbol).length ≤ 23 ∨ IsCharBoundary symbol 23
    (LongestFit 23 symbol str ↔ readable) ∧ (symbol ≠ [] → (str ≠ [] ↔ readable)) ∧
      ((utf8Bytes symbol).length ≤ 23 → str = symbol) := by
  intro str readable
  have hstr : str = (fromUtf8 ((utf8Bytes symbol).take 23)).getD [] :=
    symbolStr_new hzero
  have hfits : (utf8Bytes symbol).length ≤ 23 → str = symbol := by
    intro hlen
    rw [hstr, List.take_of_length_le hlen, fromUtf8_utf8Bytes, Option.getD_some]
  have hlongest : readable → LongestFit 23 symbol str := by
    rintro (hlen | hcut)
    · rw [hfits hlen]
      exact longestFit_self hlen
    · obtain ⟨p, hp, hlen, hread⟩ := fromUtf8_take_of_boundary hcut
      rw [hstr, hread, Option.getD_some]
      exact longestFit_of_length_eq hp hlen
  have hempty : ¬readable → str = [] := by
    intro hnot
    have hlong : 23 ≤ (utf8Bytes symbol).length := by
      by_contra hlt
      exact hnot (Or.inl (by omega))
    rw [hstr, fromUtf8_take_of_not_boundary hlong fun h => hnot (Or.inr h),
      Option.getD_none]
  have hnonempty : symbol ≠ [] → LongestFit 23 symbol str → str ≠ [] := by
    intro hne hfit hnil
    rw [hnil] at hfit
    exact not_longestFit_nil (by decide) hne hfit
  refine ⟨⟨?_, hlongest⟩, ?_, hfits⟩
  · intro hfit
    by_contra hnot
    have hne : symbol ≠ [] := by
      rintro rfl
      exact hnot (Or.inl (Nat.zero_le _))
    exact hnonempty hne hfit (hempty hnot)
  · intro hne
    refine ⟨?_, fun h => hnonempty hne (hlongest h)⟩
    intro hread
    by_contra hnot
    exact hread (hempty hnot)

/-- Twelve characters of two bytes are cut inside one; with a character of one
byte before them the cut falls between two. -/
theorem symbolStr_new_iff_boundary :
    let symbol : Symbol := 'X' :: List.replicate 12 'é'
    LongestFit 23 symbol (Signal.new 0 symbol .buy 1 0 0 : Signal ℚ).symbolStr := by
  intro symbol
  exact (symbolStr_new_iff 0 symbol .buy (1 : ℚ) 0 0 (by decide)).1.2 (by decide)

end RoundTrip

end Candlestore.Hub.Wire
