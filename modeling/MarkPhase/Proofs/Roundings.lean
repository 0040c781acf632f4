import Mathlib.Algebra.Order.Field.Power
import Mathlib.Algebra.Order.Floor.Semifield
import Mathlib.Data.Rat.Floor
import Mathlib.Tactic.FieldSimp
import Mathlib.Tactic.Linarith
import Mathlib.Tactic.Positivity
import MarkPhase.Numerals

/-!
Numerals that need no rounding. A decimal numeral is read as the nearest binary64 number, and
where the numeral is itself such a number nothing is lost, so the count that is read is its
whole part. Whatever is too small to be told from zero has no whole part, and whatever is left
out as too large does not fit 64 bits.
-/

namespace MarkPhase

/-- A binary64 number that is not negative. -/
def IsBinary (value : ℚ) : Prop :=
  ∃ (mantissa : ℕ) (exponent : ℤ), mantissa < 2 ^ 53 ∧ -1074 ≤ exponent ∧ exponent ≤ 971 ∧
    value = mantissa * 2 ^ exponent

/-- A count that fits 64 bits. -/
def fitting (count : ℕ) : Option ℕ :=
  if count < 2 ^ 64 then some count else none

theorem roundHalfEven_of_eq_mul {num den whole : ℕ} (hden : 0 < den) (h : num = whole * den) :
    roundHalfEven num den = whole := by
  subst h
  simp [roundHalfEven, Nat.mul_div_cancel _ hden, hden]

/-- The fraction of two numbers is above the power of two that their lengths allow. -/
theorem two_zpow_lt_div {num den : ℕ} (hnum : 0 < num) (hden : 0 < den) :
    (2 : ℚ) ^ ((Nat.log2 num : ℤ) - Nat.log2 den - 1) < num / den := by
  have hlow : (2 : ℚ) ^ Nat.log2 num ≤ num := by
    exact_mod_cast Nat.log2_self_le hnum.ne'
  have hhigh : (den : ℚ) < 2 ^ (Nat.log2 den + 1) := by
    exact_mod_cast Nat.lt_log2_self
  have hpos : (0 : ℚ) < den := by exact_mod_cast hden
  have hsplit : (2 : ℚ) ^ ((Nat.log2 num : ℤ) - Nat.log2 den - 1) =
      2 ^ Nat.log2 num / 2 ^ (Nat.log2 den + 1) := by
    rw [sub_sub, zpow_sub₀ (by norm_num), zpow_natCast]
    norm_cast
  rw [hsplit]
  calc (2 : ℚ) ^ Nat.log2 num / 2 ^ (Nat.log2 den + 1)
      < 2 ^ Nat.log2 num / den := by
        exact div_lt_div_of_pos_left (by positivity) hpos hhigh
    _ ≤ num / den := by gcongr

/-- Shifting the numerator or the denominator divides the fraction by a power of two. -/
theorem shifted_div (num den : ℕ) (exponent : ℤ) :
    ((num * 2 ^ (-exponent).toNat : ℕ) : ℚ) / (den * 2 ^ exponent.toNat : ℕ) =
      num / den * 2 ^ (-exponent) := by
  rcases le_total 0 exponent with hpos | hneg
  · obtain ⟨n, rfl⟩ := Int.eq_ofNat_of_zero_le hpos
    simp [zpow_neg]
    field_simp
  · obtain ⟨n, hn⟩ := Int.eq_ofNat_of_zero_le (neg_nonneg.mpr hneg)
    obtain rfl : exponent = -n := by omega
    simp
    ring

/-- A mantissa that has to grow by a power of two to pass a bound of its own size. -/
private theorem exponent_nonneg {mantissa : ℕ} {shift : ℤ} (hmantissa : mantissa < 2 ^ 53)
    (h : (2 : ℚ) ^ 52 < mantissa * 2 ^ shift) : 0 ≤ shift := by
  by_contra hneg
  have hshift : (2 : ℚ) ^ shift ≤ 2 ^ (-1 : ℤ) := zpow_le_zpow_right₀ (by norm_num) (by omega)
  have hbound : (mantissa : ℚ) < 2 ^ 53 := by exact_mod_cast hmantissa
  have hhalf : (mantissa : ℚ) * 2 ^ shift ≤ mantissa * 2 ^ (-1 : ℤ) := by gcongr
  rw [zpow_neg_one] at hhalf
  linarith

private theorem exponent_pos {mantissa : ℕ} {shift : ℤ} (hmantissa : mantissa < 2 ^ 53)
    (h : (2 : ℚ) ^ 53 ≤ mantissa * 2 ^ shift) : 0 < shift := by
  by_contra hneg
  have hshift : (2 : ℚ) ^ shift ≤ 2 ^ (0 : ℤ) := zpow_le_zpow_right₀ (by norm_num) (by omega)
  have hbound : (mantissa : ℚ) < 2 ^ 53 := by exact_mod_cast hmantissa
  have hself : (mantissa : ℚ) * 2 ^ shift ≤ mantissa * 2 ^ (0 : ℤ) := by gcongr
  rw [zpow_zero] at hself
  linarith

/-- A fraction that equals a whole number of powers of two is a multiple of its denominator. -/
private theorem eq_mul_of_div_eq {num den mantissa : ℕ} {shift : ℤ} (hden : 0 < den)
    (hshift : 0 ≤ shift) (h : (num : ℚ) / den = mantissa * 2 ^ shift) :
    num = mantissa * 2 ^ shift.toNat * den := by
  obtain ⟨n, rfl⟩ := Int.eq_ofNat_of_zero_le hshift
  have hpos : (den : ℚ) ≠ 0 := by exact_mod_cast hden.ne'
  rw [div_eq_iff hpos] at h
  rw [Int.toNat_natCast]
  exact_mod_cast h

/-- A fraction that is a binary64 number is its own nearest binary64 number. -/
theorem nearestBinary_exact {num den : ℕ} (hnum : 0 < num) (hden : 0 < den)
    (h : IsBinary ((num : ℚ) / den)) :
    ((nearestBinary num den).1 : ℚ) * 2 ^ (nearestBinary num den).2 = num / den := by
  obtain ⟨mantissa, exponent, hmantissa, hleast, -, hvalue⟩ := h
  set least : ℤ := max ((Nat.log2 num : ℤ) - Nat.log2 den - 53) (-1074) with hdef
  have hscaled : ((num * 2 ^ (-least).toNat : ℕ) : ℚ) / (den * 2 ^ least.toNat : ℕ) =
      mantissa * 2 ^ (exponent - least) := by
    rw [shifted_div, hvalue, mul_assoc, ← zpow_add₀ (by norm_num), sub_eq_add_neg]
  have hdenScaled : 0 < den * 2 ^ least.toNat := by positivity
  -- below the least exponent of all numbers there is no room left, and above it the
  -- fraction takes up more than the mantissa allows
  have hge : 0 ≤ exponent - least := by
    rcases le_total ((Nat.log2 num : ℤ) - Nat.log2 den - 53) (-1074) with hsmall | hlarge
    · rw [hdef, max_eq_right hsmall]
      omega
    · refine exponent_nonneg hmantissa ?_
      have hlt := two_zpow_lt_div hnum hden
      rw [← hscaled, shifted_div, hdef, max_eq_left hlarge]
      calc (2 : ℚ) ^ 52 = 2 ^ ((Nat.log2 num : ℤ) - Nat.log2 den - 1) *
            2 ^ (-((Nat.log2 num : ℤ) - Nat.log2 den - 53)) := by
            rw [← zpow_add₀ (by norm_num)]
            norm_num
        _ < num / den * 2 ^ (-((Nat.log2 num : ℤ) - Nat.log2 den - 53)) := by gcongr
  have hunfold : nearestBinary num den =
      if num * 2 ^ (-least).toNat / (den * 2 ^ least.toNat) < 2 ^ 53 then
        (roundHalfEven (num * 2 ^ (-least).toNat) (den * 2 ^ least.toNat), least)
      else
        (roundHalfEven (num * 2 ^ (-least).toNat) (2 * (den * 2 ^ least.toNat)), least + 1) := rfl
  rw [hunfold]
  split
  · have hmul := eq_mul_of_div_eq hdenScaled hge hscaled
    rw [roundHalfEven_of_eq_mul hdenScaled hmul, hvalue]
    push_cast
    rw [mul_assoc, ← zpow_natCast, Int.toNat_of_nonneg hge, ← zpow_add₀ (by norm_num)]
    congr 2
    omega
  · rename_i hfull
    have hlarge : (2 : ℚ) ^ 53 ≤ mantissa * 2 ^ (exponent - least) := by
      rw [← hscaled, le_div_iff₀ (by exact_mod_cast hdenScaled)]
      have hle := (Nat.le_div_iff_mul_le hdenScaled).mp (Nat.le_of_not_lt hfull)
      exact_mod_cast hle
    have hgt : 0 ≤ exponent - least - 1 := by
      have hpos := exponent_pos hmantissa hlarge
      omega
    have hhalved : ((num * 2 ^ (-least).toNat : ℕ) : ℚ) / (2 * (den * 2 ^ least.toNat) : ℕ) =
        mantissa * 2 ^ (exponent - least - 1) := by
      rw [zpow_sub_one₀ (by norm_num), ← mul_assoc (mantissa : ℚ), ← hscaled]
      push_cast
      field_simp
    have hmul := eq_mul_of_div_eq (by omega) hgt hhalved
    rw [roundHalfEven_of_eq_mul (by omega) hmul, hvalue]
    push_cast
    rw [mul_assoc, ← zpow_natCast, Int.toNat_of_nonneg hgt, ← zpow_add₀ (by norm_num)]
    congr 2
    omega

/-- The whole part of a number is that of its mantissa, shifted. -/
theorem floor_mul_zpow (mantissa : ℕ) (exponent : ℤ) :
    mantissa * 2 ^ exponent.toNat / 2 ^ (-exponent).toNat = ⌊(mantissa : ℚ) * 2 ^ exponent⌋₊ := by
  have hdiv : (mantissa : ℚ) * 2 ^ exponent =
      (mantissa * 2 ^ exponent.toNat : ℕ) / (2 ^ (-exponent).toNat : ℕ) := by
    have hshift := shifted_div mantissa 1 (-exponent)
    rw [neg_neg, one_mul, Nat.cast_one, div_one] at hshift
    exact hshift.symm
  rw [hdiv, Nat.floor_div_eq_div]

namespace Numeral

/-- The number that a numeral without a sign stands for. -/
def value (digits : ℕ) (exponent : ℤ) : ℚ :=
  digits * 10 ^ exponent

variable {digits : ℕ} {exponent : ℤ}

theorem lt_pow_digitCount (h : digits ≠ 0) : digits < 10 ^ digitCount digits := by
  rw [digitCount, if_neg h]
  exact (Nat.length_toDigits_le_iff (by norm_num) Nat.length_toDigits_pos).mp le_rfl

theorem pow_digitCount_le (h : digits ≠ 0) : 10 ^ (digitCount digits - 1) ≤ digits := by
  rw [digitCount, if_neg h]
  rcases Nat.lt_or_ge 1 (Nat.toDigits 10 digits).length with hlong | hshort
  · by_contra hlt
    have hle := (Nat.length_toDigits_le_iff (b := 10) (by norm_num)
      (Nat.sub_pos_of_lt hlong)).mpr (Nat.lt_of_not_le hlt)
    omega
  · rw [Nat.sub_eq_zero_of_le hshort, pow_zero]
    exact Nat.one_le_iff_ne_zero.mpr h

theorem value_lt (h : digits ≠ 0) : value digits exponent < 10 ^ (digitCount digits + exponent) := by
  have hlt : (digits : ℚ) < 10 ^ digitCount digits := by exact_mod_cast lt_pow_digitCount h
  rw [value, zpow_add₀ (by norm_num), zpow_natCast]
  gcongr

theorem le_value (h : digits ≠ 0) :
    10 ^ (digitCount digits + exponent - 1) ≤ value digits exponent := by
  have hle : ((10 ^ (digitCount digits - 1) : ℕ) : ℚ) ≤ digits := by
    exact_mod_cast pow_digitCount_le h
  have hpos : 1 ≤ digitCount digits := by
    rw [digitCount, if_neg h]
    exact Nat.length_toDigits_pos
  have hsplit : (digitCount digits : ℤ) + exponent - 1 = (digitCount digits - 1 : ℕ) + exponent := by
    omega
  rw [value, hsplit, zpow_add₀ (by norm_num), zpow_natCast]
  push_cast at hle
  gcongr

theorem value_eq_div : value digits exponent =
    (digits * 10 ^ exponent.toNat : ℕ) / (10 ^ (-exponent).toNat : ℕ) := by
  rcases le_total 0 exponent with hpos | hneg
  · obtain ⟨n, rfl⟩ := Int.eq_ofNat_of_zero_le hpos
    simp [value]
  · obtain ⟨n, hn⟩ := Int.eq_ofNat_of_zero_le (neg_nonneg.mpr hneg)
    obtain rfl : exponent = -n := by omega
    simp [value]
    rfl

/-- The count that a numeral is read as is its whole part, where it needs no rounding. -/
theorem toCount?_eq (h : IsBinary (value digits exponent)) :
    toCount? ⟨false, digits, exponent⟩ = fitting ⌊value digits exponent⌋₊ := by
  by_cases hzero : digits = 0 ∨ (digitCount digits + exponent : ℤ) ≤ -324
  · have hfloor : ⌊value digits exponent⌋₊ = 0 := by
      rw [Nat.floor_eq_zero]
      rcases eq_or_ne digits 0 with rfl | hdigits
      · simp [value]
      · refine (value_lt hdigits).trans_le ?_
        exact zpow_le_one_of_nonpos₀ (by norm_num) (by have := hzero.resolve_left hdigits; omega)
    simp [toCount?, magnitude?, hzero, hfloor, fitting]
  · rw [not_or] at hzero
    by_cases hlarge : (22 : ℤ) ≤ digitCount digits + exponent
    · have hfloor : 2 ^ 64 ≤ ⌊value digits exponent⌋₊ := by
        refine Nat.le_floor ((?_ : ((2 ^ 64 : ℕ) : ℚ) ≤ 10 ^ (21 : ℤ)).trans ?_)
        · norm_num
        · exact (zpow_le_zpow_right₀ (by norm_num) (by omega)).trans (le_value hzero.1)
      rw [fitting, if_neg (Nat.not_lt.mpr hfloor)]
      simp [toCount?, magnitude?, hzero.1, hzero.2, hlarge]
    · have hpos : 0 < digits := Nat.pos_of_ne_zero hzero.1
      have hnum : 0 < digits * 10 ^ exponent.toNat := by positivity
      have hden : 0 < 10 ^ (-exponent).toNat := by positivity
      have hexact := nearestBinary_exact hnum hden (value_eq_div ▸ h)
      rw [← value_eq_div] at hexact
      have hwhole := floor_mul_zpow
        (nearestBinary (digits * 10 ^ exponent.toNat) (10 ^ (-exponent).toNat)).1
        (nearestBinary (digits * 10 ^ exponent.toNat) (10 ^ (-exponent).toNat)).2
      rw [hexact] at hwhole
      rw [← hwhole, fitting, ← ite_not]
      simp [toCount?, magnitude?, hzero.1, hzero.2, hlarge]

end Numeral

end MarkPhase
