import Mathlib.Algebra.Order.Ring.Int
import Mathlib.Data.Nat.Init

/-!
# Naturals in a floating point type

A type with `p` bits behind the leading one holds a natural number if the bits below these are
zeros (`Fits`). A conversion rounds to the nearest value of the type, and to the even one of two
that are equally near. It is exact for the numbers that fit, and for no others
(`roundEven_eq_iff`).
-/

set_option autoImplicit false

namespace Rounding

variable (p n : ℕ)

/-- How many bits of `n` are behind the last one that there is room for. -/
def spare : ℕ := n.log2 - p

/-- `n` is a value of the type. -/
def Fits : Prop := 2 ^ spare p n ∣ n

instance : Decidable (Fits p n) := inferInstanceAs (Decidable (_ ∣ _))

/-- The value to which `n` is rounded. -/
def roundEven : ℕ :=
  let e := spare p n
  if 2 ^ e < 2 * (n % 2 ^ e) ∨ 2 ^ e = 2 * (n % 2 ^ e) ∧ n / 2 ^ e % 2 = 1 then
    (n / 2 ^ e + 1) * 2 ^ e
  else n / 2 ^ e * 2 ^ e

variable {p n}

theorem fits_of_lt (h : n < 2 ^ (p + 1)) : Fits p n := by
  have hspare : spare p n = 0 := by
    rcases Nat.eq_zero_or_pos n with rfl | hn
    · rw [spare, Nat.log2_zero, Nat.zero_sub]
    · exact Nat.sub_eq_zero_of_le (Nat.le_of_lt_succ ((Nat.log2_lt (Nat.ne_of_gt hn)).mpr h))
  rw [Fits, hspare, pow_zero]
  exact one_dvd n

/-- Any number with few enough bits in front of zeros is a value of the type. The bound itself is a
power of two. -/
theorem fits_mul {q e : ℕ} (hq : q ≤ 2 ^ (p + 1)) : Fits p (q * 2 ^ e) := by
  rcases Nat.eq_zero_or_pos q with rfl | hpos
  · rw [zero_mul]
    exact Nat.dvd_zero _
  rcases Nat.lt_or_eq_of_le hq with hlt | rfl
  · refine dvd_mul_of_dvd_right (pow_dvd_pow 2 ?_) q
    have hne : q * 2 ^ e ≠ 0 := Nat.ne_of_gt (Nat.mul_pos hpos (Nat.two_pow_pos e))
    have hlog : (q * 2 ^ e).log2 < p + 1 + e := by
      rw [Nat.log2_lt hne, pow_add]
      exact Nat.mul_lt_mul_of_pos_right hlt (Nat.two_pow_pos e)
    rw [spare]
    omega
  · rw [← pow_add, Fits, spare, Nat.log2_two_pow]
    exact pow_dvd_pow 2 (Nat.sub_le _ _)

theorem fits_roundEven : Fits p (roundEven p n) := by
  have hlt : n / 2 ^ spare p n < 2 ^ (p + 1) := by
    rw [Nat.div_lt_iff_lt_mul (Nat.two_pow_pos _), ← pow_add]
    refine Nat.lt_of_lt_of_le Nat.lt_log2_self (Nat.pow_le_pow_right Nat.two_pos ?_)
    rw [spare]
    omega
  dsimp only [roundEven]
  split_ifs
  · exact fits_mul hlt
  · exact fits_mul (Nat.le_of_lt hlt)

/-- **What is exact.** A number is rounded to itself exactly if it is a value of the type. -/
theorem roundEven_eq_iff : roundEven p n = n ↔ Fits p n := by
  constructor
  · intro h
    rw [← h]
    exact fits_roundEven
  · intro h
    have hmod : n % 2 ^ spare p n = 0 := Nat.mod_eq_zero_of_dvd h
    have hpos := Nat.two_pow_pos (spare p n)
    dsimp only [roundEven]
    rw [hmod, if_neg (by omega)]
    exact Nat.div_mul_cancel h

end Rounding
