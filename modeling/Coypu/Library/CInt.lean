import Mathlib.Algebra.Order.Ring.Int

/-!
# Conversions between C integer types

A value converted to `int` keeps its residue in `[-2³¹, 2³¹)`, one converted to an unsigned type its
residue in `[0, 2ᵇⁱᵗˢ)`. Where a source assigns between types of different widths these are the
functions it applies, and the lemmas below are the cases in which nothing is lost.
-/

namespace CInt

/-- The value of `i` as a 32-bit `int`. -/
def toInt (i : ℤ) : ℤ := Int.bmod i (2 ^ 32)

/-- The value of `i` as an unsigned integer of the given width. -/
def toUnsigned (bits : ℕ) (i : ℤ) : ℕ := (i % 2 ^ bits).toNat

theorem toInt_of_mem {i : ℤ} (h₁ : -2 ^ 31 ≤ i) (h₂ : i < 2 ^ 31) : toInt i = i := by
  rw [toInt, Int.bmod_eq_of_le (by omega) (by omega)]

theorem toInt_lt (i : ℤ) : toInt i < 2 ^ 31 := by
  have h : i.bmod (2 ^ 32) < ((2 ^ 32 : ℕ) + 1) / 2 := Int.bmod_lt (by decide)
  rw [toInt]
  omega

theorem le_toInt (i : ℤ) : -2 ^ 31 ≤ toInt i := by
  have h : -((2 ^ 32 : ℕ) / 2 : ℤ) ≤ i.bmod (2 ^ 32) := Int.le_bmod (by decide)
  rw [toInt]
  omega

theorem toInt_emod (i : ℤ) : toInt i % 2 ^ 32 = i % 2 ^ 32 := by
  rw [toInt]
  exact_mod_cast Int.bmod_emod

/-- A natural number only gets smaller when its `int` value is not negative. -/
theorem toInt_natCast_le {n : ℕ} (h : 0 ≤ toInt n) : toInt n ≤ n := by
  have hmod : toInt n % 2 ^ 32 = (n : ℤ) % 2 ^ 32 := toInt_emod n
  have hlt := toInt_lt n
  omega

theorem toUnsigned_of_mem {bits : ℕ} {i : ℤ} (h₁ : 0 ≤ i) (h₂ : i < 2 ^ bits) :
    toUnsigned bits i = i.toNat := by
  rw [toUnsigned, Int.emod_eq_of_lt h₁ h₂]

theorem toUnsigned_natCast {bits n : ℕ} (h : n < 2 ^ bits) : toUnsigned bits n = n := by
  rw [toUnsigned_of_mem (by omega) (by exact_mod_cast h), Int.toNat_natCast]

theorem toUnsigned_of_neg {bits : ℕ} {i : ℤ} (h₁ : -2 ^ bits ≤ i) (h₂ : i < 0) :
    (toUnsigned bits i : ℤ) = i + 2 ^ bits := by
  have hmod : i % 2 ^ bits = i + 2 ^ bits := by
    rw [← Int.add_emod_right, Int.emod_eq_of_lt (by omega) (by omega)]
  rw [toUnsigned, hmod, Int.toNat_of_nonneg (by omega)]

theorem toUnsigned_natCast_eq_mod (bits n : ℕ) : toUnsigned bits n = n % 2 ^ bits := by
  have hmod : (n : ℤ) % 2 ^ bits = (n % 2 ^ bits : ℕ) := by
    rw [Int.natCast_emod, Int.natCast_pow]
    rfl
  rw [toUnsigned, hmod, Int.toNat_natCast]

theorem toUnsigned_lt (bits : ℕ) (i : ℤ) : toUnsigned bits i < 2 ^ bits := by
  have hpos : (0 : ℤ) < 2 ^ bits := Int.pow_pos (by decide)
  have hlt := Int.emod_lt_of_pos i hpos
  have hnonneg := Int.emod_nonneg i (Int.ne_of_gt hpos)
  have hcast : ((2 ^ bits : ℕ) : ℤ) = 2 ^ bits := Int.natCast_pow 2 bits
  rw [toUnsigned]
  omega

theorem toUnsigned_natCast_le (bits n : ℕ) : toUnsigned bits n ≤ n := by
  rw [toUnsigned_natCast_eq_mod]
  exact Nat.mod_le _ _

end CInt
