import TypeGraph.Proofs.Double.Rounding
import Mathlib.Algebra.Order.Ring.Abs
import Mathlib.Algebra.Order.Ring.Rat
import Mathlib.Data.Rat.Cast.CharZero
import Mathlib.Tactic.FieldSimp

/-!
# The numbers that doubles stand for

`Double.value?` is the rational number of a bit pattern as IEEE 754 gives it, from the sign, the
exponent and the fraction; infinities and NaNs have none. It is the number of ticks, with its sign
(`Double.value?_eq`), and a double is taken for a whole number exactly if its value is one
(`Double.integer?_eq_some_iff`).
-/

namespace TypeGraph

namespace Double

/-- The sign of a bit pattern. -/
def sign (d : Double) : ℚ := if d.bits.toNat / 2 ^ 63 = 0 then 1 else -1

/-- The 11 bits below the sign. -/
def exponentField (d : Double) : ℕ := d.bits.toNat / 2 ^ 52 % 2 ^ 11

/-- The last 52 bits. -/
def fractionField (d : Double) : ℕ := d.bits.toNat % 2 ^ 52

/-- The number that a bit pattern stands for. With the exponent 0 there is no leading bit, and with
the largest one no number. -/
def value? (d : Double) : Option ℚ :=
  if d.exponentField = 2047 then none
  else if d.exponentField = 0 then
    some (d.sign * (d.fractionField / 2 ^ 52) * 2 ^ (-1022 : ℤ))
  else some (d.sign * (1 + d.fractionField / 2 ^ 52) * 2 ^ (d.exponentField - 1023 : ℤ))

theorem sign_eq (d : Double) : d.sign = if d.isNegative then -1 else 1 := by
  have hlt : d.bits.toNat < 2 ^ 64 := d.bits.toNat_lt
  have hp : Nat.pow 2 63 = 2 ^ 63 := rfl
  have hsign : d.bits.toNat / 2 ^ 63 = 0 ↔ ¬ d.isNegative = true := by
    rw [isNegative, decide_eq_true_eq, hp]
    omega
  rw [sign]
  by_cases hn : d.isNegative = true
  · rw [if_pos hn, if_neg (hsign.not.mpr (not_not.mpr hn))]
  · rw [if_neg hn, if_pos (hsign.mpr hn)]

/-- The fields are the parts of the magnitude. -/
theorem fields_eq (d : Double) :
    d.exponentField = d.magnitude / 2 ^ 52 ∧ d.fractionField = d.magnitude % 2 ^ 52 := by
  have hlt : d.bits.toNat < 2 ^ 64 := d.bits.toNat_lt
  have hp : Nat.pow 2 63 = 2 ^ 63 := rfl
  rw [exponentField, fractionField, magnitude, hp]
  omega

theorem isFinite_iff_exponentField (d : Double) : d.isFinite = true ↔ d.exponentField ≠ 2047 := by
  have hlt : d.magnitude < 2 ^ 63 := Nat.mod_lt _ (by decide)
  have hp : infinity = 2047 * 2 ^ 52 := rfl
  rw [isFinite_iff, d.fields_eq.1, hp]
  omega

/-- The value of a double is its ticks, with its sign. -/
theorem value?_eq (d : Double) :
    d.value? = if d.isFinite then some (d.sign * (d.ticks / unit)) else none := by
  by_cases hf : d.isFinite = true
  · have hunit : (unit : ℚ) = 2 ^ 52 * 2 ^ 1022 := by
      rw [unit_eq, ← pow_add, Nat.cast_pow, Nat.cast_ofNat]
    have hsmall : (2 : ℚ) ^ (-1022 : ℤ) = (2 ^ 1022)⁻¹ := zpow_neg 2 1022
    have hne : (2 : ℚ) ^ 1022 ≠ 0 := pow_ne_zero _ two_ne_zero
    rw [if_pos hf, value?, if_neg ((isFinite_iff_exponentField d).mp hf), hunit]
    by_cases he : d.magnitude / 2 ^ 52 = 0
    · obtain ⟨-, ht, hlt⟩ := ticks_subnormal he
      rw [if_pos (d.fields_eq.1.trans he), d.fields_eq.2, Nat.mod_eq_of_lt hlt, ht, hsmall]
      generalize (2 : ℚ) ^ 1022 = u at hne
      congr 1
      field_simp
    · obtain ⟨hs, ht⟩ := ticks_normal he
      have hexp : (2 : ℚ) ^ ((d.shift + 1 : ℕ) - 1023 : ℤ) = 2 ^ d.shift * (2 ^ 1022)⁻¹ := by
        rw [← hsmall, ← zpow_natCast, ← zpow_add₀ two_ne_zero]
        congr 1
        omega
      rw [if_neg (d.fields_eq.1.trans_ne he), d.fields_eq.1, d.fields_eq.2, ht, hs, hexp]
      generalize (2 : ℚ) ^ 1022 = u at hne
      congr 1
      push_cast
      field_simp
      norm_num
  · rw [if_neg hf, value?, if_pos]
    rwa [isFinite_iff_exponentField, not_not] at hf

/-- A double is taken for a whole number exactly if its value is that number. -/
theorem integer?_eq_some_iff {d : Double} {i : ℤ} :
    d.integer? = some i ↔ d.value? = some (i : ℚ) := by
  have hu : (unit : ℚ) ≠ 0 := Nat.cast_ne_zero.mpr unit_pos.ne'
  constructor
  · intro hi
    obtain ⟨hf, ht, hneg, hpos⟩ := integer?_eq_some hi
    have hticks : (d.ticks / unit : ℚ) = |(i : ℚ)| := by
      rw [ht, Nat.cast_mul, mul_div_cancel_right₀ _ hu, Nat.cast_natAbs, Int.cast_abs]
    rw [value?_eq, if_pos hf, hticks, sign_eq, Option.some.injEq]
    rcases lt_trichotomy i 0 with hlt | rfl | hgt
    · rw [if_pos (hneg hlt), abs_of_neg (Int.cast_lt_zero.mpr hlt)]
      ring
    · simp
    · rw [hpos hgt, if_neg Bool.false_ne_true, abs_of_pos (Int.cast_pos.mpr hgt), one_mul]
  · intro hv
    rw [value?_eq] at hv
    split at hv
    next hf =>
      have hi : d.sign * (d.ticks / unit) = i := Option.some.inj hv
      have habs : (d.ticks / unit : ℚ) = |(i : ℚ)| := by
        have hpos : (0 : ℚ) ≤ d.ticks / unit := div_nonneg (Nat.cast_nonneg _) (Nat.cast_nonneg _)
        have hsign : |d.sign| = 1 := by
          rw [sign_eq]
          split <;> simp
        rw [← hi, abs_mul, hsign, one_mul, abs_of_nonneg hpos]
      have ht : d.ticks = i.natAbs * unit := by
        rw [div_eq_iff hu, ← Int.cast_abs, ← Nat.cast_natAbs, ← Nat.cast_mul] at habs
        exact Nat.cast_injective habs
      rw [integer?, ht, Nat.mul_mod_left, Nat.mul_div_cancel _ unit_pos, if_pos ⟨hf, rfl⟩]
      rw [habs, sign_eq] at hi
      refine congrArg some ?_
      by_cases hn : d.isNegative = true
      · rw [if_pos hn, neg_one_mul, ← Int.cast_abs, ← Int.cast_neg, Int.cast_inj] at hi
        rw [if_pos hn, ← Int.abs_eq_natAbs, hi]
      · rw [if_neg hn, one_mul, ← Int.cast_abs, Int.cast_inj] at hi
        rw [if_neg hn, ← Int.abs_eq_natAbs, hi]
    next => cases hv

end Double

end TypeGraph
