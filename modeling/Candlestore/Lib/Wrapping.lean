import Mathlib.Data.Nat.ModEq
import Mathlib.Tactic.Common

/-!
# Free-running 64-bit counters

A counter that only ever moves forward is stored as a `UInt64` and wraps.  Two
counters that stay less than `2 ^ 64` apart can still be compared: their
wrapping difference is the true difference.  A counter masked by a power of two
less one is its true value modulo that power.
-/

namespace Candlestore.Lib

theorem ofNat_succ_word (n : Nat) : UInt64.ofNat (n + 1) = UInt64.ofNat n + 1 :=
  UInt64.ofNat_add n 1

/-- The wrapping difference of two counters is how far they are apart. -/
theorem toNat_counter_sub {m n : Nat} (hle : n ≤ m) (hlt : m - n < 2 ^ 64) :
    (UInt64.ofNat m - UInt64.ofNat n).toNat = m - n := by
  rw [UInt64.toNat_sub, UInt64.toNat_ofNat', UInt64.toNat_ofNat']
  have hm := Nat.div_add_mod m (2 ^ 64)
  have hn := Nat.div_add_mod n (2 ^ 64)
  omega

/-- If `n` may have overtaken `m`, the wrapping difference is within a bound that `m`
keeps to exactly if the lead of `n` is a whole turn of the counter, or almost one. -/
theorem toNat_counter_sub_le_iff {m n bound : Nat} (hnear : m ≤ n + bound)
    (hlt : bound < 2 ^ 64) :
    (UInt64.ofNat m - UInt64.ofNat n).toNat ≤ bound ↔
      (n - m) % 2 ^ 64 = 0 ∨ 2 ^ 64 ≤ (n - m) % 2 ^ 64 + bound := by
  rcases Nat.le_total n m with hle | hge
  · rw [toNat_counter_sub hle (by omega), Nat.sub_eq_zero_of_le hle]
    exact iff_of_true (by omega) (.inl rfl)
  · rw [UInt64.toNat_sub, UInt64.toNat_ofNat', UInt64.toNat_ofNat']
    have hm := Nat.div_add_mod m (2 ^ 64)
    have hn := Nat.div_add_mod n (2 ^ 64)
    omega

theorem counter_eq_iff {m n : Nat} (hle : n ≤ m) (hlt : m - n < 2 ^ 64) :
    UInt64.ofNat m = UInt64.ofNat n ↔ m = n := by
  constructor
  · intro h
    have hsub := toNat_counter_sub hle hlt
    rw [h, UInt64.sub_self, UInt64.toNat_zero] at hsub
    omega
  · rintro rfl
    rfl

/-- Masking by a power of two less one is reduction modulo that power. -/
theorem toNat_and_mask (x w : UInt64) {k : Nat} (hw : w.toNat = 2 ^ k) :
    (x &&& (w - 1)).toNat = x.toNat % 2 ^ k := by
  have hone : 1 ≤ w := by
    rw [UInt64.le_iff_toNat_le, hw]
    exact Nat.one_le_two_pow
  rw [UInt64.toNat_and, UInt64.toNat_sub_of_le w 1 hone, hw, UInt64.toNat_one,
    Nat.and_two_pow_sub_one_eq_mod]

/-- Reducing a stored counter modulo a power of two that fits in a word forgets
the wrap. -/
theorem toNat_counter_mod (n : Nat) {k : Nat} (hk : k ≤ 64) :
    (UInt64.ofNat n).toNat % 2 ^ k = n % 2 ^ k := by
  rw [UInt64.toNat_ofNat', Nat.mod_mod_of_dvd _ (Nat.pow_dvd_pow 2 hk)]

/-- Two indices less than `n` apart have different residues modulo `n`. -/
theorem mod_ne_of_lt {i j n : Nat} (hij : i < j) (hlt : j < i + n) : i % n ≠ j % n := by
  intro h
  have hdvd : n ∣ j - i := (Nat.modEq_iff_dvd' hij.le).1 h
  have := Nat.le_of_dvd (by omega) hdvd
  omega

end Candlestore.Lib
