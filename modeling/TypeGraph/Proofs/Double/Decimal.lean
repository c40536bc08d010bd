import TypeGraph.Double.Decimal
import TypeGraph.Proofs.Double.Rounding

/-!
# Decimals that read back

The double nearest to a decimal depends on its value and not on how many zeros its coefficient ends
in (`Decimal.magnitude_mul_pow`). The exact decimal of a finite double rounds to it
(`Double.magnitude_exact`), and so does the shortest one (`Double.magnitude_shortest`), which is
searched among decimals that do.
-/

namespace TypeGraph

/-! ## Digits -/

namespace Decimal

theorem digitCount_le_iff {n k : Nat} (hk : 0 < k) : digitCount n ≤ k ↔ n < 10 ^ k :=
  Nat.length_toDigits_le_iff (by decide) hk

theorem toDigits_mul_pow {n : Nat} (hn : 0 < n) (k : Nat) :
    Nat.toDigits 10 (n * 10 ^ k) = Nat.toDigits 10 n ++ List.replicate k '0' := by
  induction k with
  | zero => simp
  | succ k ih =>
    have hpos : 0 < n * 10 ^ k := Nat.mul_pos hn (Nat.pow_pos (by decide))
    have hd : Nat.toDigits 10 (n * 10 ^ k) ++ Nat.toDigits 10 0 =
        Nat.toDigits 10 (10 * (n * 10 ^ k) + 0) :=
      Nat.toDigits_append_toDigits (by decide) hpos (by decide)
    rw [List.replicate_succ', ← List.append_assoc, ← ih, Nat.pow_succ, ← Nat.mul_assoc,
      Nat.mul_comm (n * 10 ^ k) 10, ← Nat.add_zero (10 * (n * 10 ^ k)), ← hd, Nat.toDigits_zero]

theorem digitCount_mul_pow {n : Nat} (hn : 0 < n) (k : Nat) :
    digitCount (n * 10 ^ k) = digitCount n + k := by
  rw [digitCount, toDigits_mul_pow hn, List.length_append, List.length_replicate, digitCount]

/-! ## The nearest double -/

/-- Zeros at the end of the coefficient may be left to the exponent. -/
theorem magnitude_mul_pow (c k : Nat) (e : Int) :
    magnitude ⟨c * 10 ^ k, e⟩ = magnitude ⟨c, e + k⟩ := by
  have hk : 0 < 10 ^ k := Nat.pow_pos (by decide)
  obtain rfl | hc := Nat.eq_zero_or_pos c
  · rw [Nat.zero_mul]
    rfl
  have hne : c * 10 ^ k ≠ 0 := (Nat.mul_pos hc hk).ne'
  have horder : order ⟨c * 10 ^ k, e⟩ = order ⟨c, e + k⟩ := by
    simp only [order, digitCount_mul_pow hc]
    omega
  rw [magnitude, magnitude, if_neg hne, if_neg hc.ne', horder]
  simp only [Nat.pow_eq]
  generalize Double.unit = u
  split
  · rfl
  split
  · rfl
  by_cases he : 0 ≤ e
  · -- the exponents grow together
    have hp : (e + k).toNat = k + e.toNat := by omega
    rw [if_pos he, if_pos (by omega), hp, Nat.pow_add, ← Nat.mul_assoc]
  by_cases he' : 0 ≤ e + k
  · -- a part of the zeros is the denominator
    have hp : 10 ^ k = 10 ^ (e + k).toNat * 10 ^ (-e).toNat := by
      rw [← Nat.pow_add]
      exact congrArg _ (by omega)
    have hn := Double.nearest_mul_right (c * 10 ^ (e + k).toNat * u) 1
      (Nat.pow_pos (n := (-e).toNat) (show 0 < 10 by decide))
    rw [Nat.one_mul] at hn
    rw [if_neg he, if_pos he', hp, ← Nat.mul_assoc, Nat.mul_right_comm, hn]
  · have hp : (-e).toNat = (-(e + k)).toNat + k := by omega
    rw [if_neg he, if_neg he', hp, Nat.pow_add, Nat.mul_right_comm]
    exact Double.nearest_mul_right _ _ hk

/-- A decimal of at most 300 digits before the point is in the range of doubles. -/
theorem magnitude_lt_infinity {d : Decimal} (hd : d.order ≤ 300) :
    d.magnitude < Double.infinity := by
  have hzero : 0 < Double.infinity := by decide
  have hrange {a b : Nat} (h : a / b < 2 ^ (2018 + 53)) : Double.nearest a b < Double.infinity :=
    (Double.nearest_le h).trans_lt (by decide)
  have hunit : 10 ^ 300 * Double.unit < 2 ^ (2018 + 53) := by decide +kernel
  have hlt {k : Nat} (hk : digitCount d.coefficient ≤ k) : d.coefficient ≤ 10 ^ k :=
    ((digitCount_le_iff (Nat.length_toDigits_pos.trans_le hk)).mp hk).le
  have horder : digitCount d.coefficient + d.exponent ≤ 300 := hd
  rw [magnitude]
  split
  · exact hzero
  rw [if_neg (by omega)]
  split
  · exact hzero
  split
  next he =>
    -- the zeros behind the coefficient are among the digits
    have hc : d.coefficient * 10 ^ d.exponent.toNat ≤ 10 ^ 300 :=
      calc d.coefficient * 10 ^ d.exponent.toNat ≤
            10 ^ (300 - d.exponent.toNat) * 10 ^ d.exponent.toNat :=
          Nat.mul_le_mul_right _ (hlt (by omega))
        _ = 10 ^ 300 := pow_sub_mul_pow 10 (by omega)
    refine hrange ?_
    rw [Nat.div_one]
    exact (Nat.mul_le_mul_right _ hc).trans_lt hunit
  next he =>
    have hc : d.coefficient ≤ 10 ^ (-d.exponent).toNat * 10 ^ 300 :=
      (hlt (by omega)).trans_eq (pow_add 10 _ 300)
    refine hrange (Nat.div_lt_of_lt_mul ?_)
    calc d.coefficient * Double.unit ≤ 10 ^ (-d.exponent).toNat * 10 ^ 300 * Double.unit :=
          Nat.mul_le_mul_right _ hc
      _ = 10 ^ (-d.exponent).toNat * (10 ^ 300 * Double.unit) := Nat.mul_assoc _ _ _
      _ < 10 ^ (-d.exponent).toNat * 2 ^ (2018 + 53) :=
          Nat.mul_lt_mul_of_pos_left hunit (Nat.pow_pos (by decide))

/-- A decimal of at most 310 digits before the point and at most 330 zeros behind it is rounded. -/
theorem magnitude_of_order {c : Nat} {e : Int} (hc : 0 < c) (hup : digitCount c + e ≤ 310)
    (hlow : -330 ≤ digitCount c + e) :
    magnitude ⟨c, e⟩ =
      if 0 ≤ e then Double.nearest (c * 10 ^ e.toNat * Double.unit) 1
      else Double.nearest (c * Double.unit) (10 ^ (-e).toNat) := by
  have hup' : ¬ 310 < order ⟨c, e⟩ := Int.not_lt.mpr hup
  have hlow' : ¬ order ⟨c, e⟩ < -330 := Int.not_lt.mpr hlow
  rw [magnitude, if_neg hc.ne', if_neg hup', if_neg hlow']
  rfl

end Decimal

namespace Double

/-! ## The exact decimal -/

theorem significand_pos {d : Double} (hz : d.isZero = false) : 0 < d.significand := by
  refine Nat.pos_of_ne_zero fun h0 => ?_
  have ht : d.ticks = 0 := by rw [ticks, h0, Nat.zero_mul]
  rw [ticks_eq_zero_iff, hz] at ht
  exact absurd ht (by decide)

/-- A double whose leading bits are a whole number has less than 311 digits. -/
theorem magnitude_exact_whole {d : Double} (hd : d.isFinite = true) (hz : d.isZero = false)
    (hs : 1074 ≤ d.shift) :
    Decimal.magnitude ⟨d.significand * 2 ^ (d.shift - 1074), 0⟩ = d.magnitude := by
  have hpos := Nat.mul_pos (significand_pos hz) (Nat.two_pow_pos (d.shift - 1074))
  have hlt : d.significand * 2 ^ (d.shift - 1074) < 10 ^ 310 :=
    calc d.significand * 2 ^ (d.shift - 1074) < 2 ^ 53 * 2 ^ 971 := by
          have h2 : 2 ^ (d.shift - 1074) ≤ 2 ^ 971 :=
            pow_le_pow_right₀ (by decide) (by have := shift_le hd; omega)
          have h0 : 0 < 2 ^ 971 := by decide +kernel
          exact Nat.mul_lt_mul_of_lt_of_le (significand_lt d) h2 h0
      _ < 10 ^ 310 := by decide +kernel
  have horder := (Decimal.digitCount_le_iff (by decide)).mpr hlt
  have hunit : d.significand * 2 ^ (d.shift - 1074) * 1 * unit = d.ticks := by
    rw [unit_eq, Nat.mul_one, Nat.mul_assoc, ← pow_add, Nat.sub_add_cancel hs]
    rfl
  have hup : (Decimal.digitCount (d.significand * 2 ^ (d.shift - 1074)) : Int) + 0 ≤ 310 := by
    omega
  rw [Decimal.magnitude_of_order hpos hup (by omega), if_pos (le_refl _), Int.toNat_zero,
    Nat.pow_zero, hunit, nearest_ticks]

/-- Any digits behind the point are no more than the places of a tick. -/
theorem magnitude_exact_fraction {d : Double} (hz : d.isZero = false) {k : Nat} (hk : 0 < k)
    (hs : d.shift + k = 1074) :
    Decimal.magnitude ⟨d.significand * 5 ^ k, -(k : Nat)⟩ = d.magnitude := by
  have h10 (j : Nat) : 10 ^ j = 5 ^ j * 2 ^ j := Nat.mul_pow 5 2 j
  have hsig := significand_pos hz
  have hpos := Nat.mul_pos hsig (Nat.pow_pos (n := k) (show 0 < 5 by decide))
  have hup : Decimal.digitCount (d.significand * 5 ^ k) ≤ 310 + k := by
    rw [Decimal.digitCount_le_iff (by omega), pow_add]
    have hlt : d.significand < 10 ^ 310 := (significand_lt d).trans (by decide +kernel)
    have h5 : 5 ^ k ≤ 10 ^ k := Nat.pow_le_pow_left (by decide) k
    have h0 : 0 < 10 ^ k := Nat.pow_pos (by decide)
    exact Nat.mul_lt_mul_of_lt_of_le hlt h5 h0
  have hlow : k ≤ Decimal.digitCount (d.significand * 5 ^ k) + 330 := by
    by_contra hlt
    obtain ⟨j, rfl⟩ : ∃ j, k = j + 330 := ⟨k - 330, by omega⟩
    -- fewer digits would be a number below one tick
    have hsmall : d.significand * 5 ^ (j + 330) < 10 ^ j :=
      (Decimal.digitCount_le_iff (by omega)).mp (by omega)
    have hbig : 10 ^ j ≤ 1 * 5 ^ (j + 330) := by
      rw [h10, Nat.one_mul, Nat.pow_add]
      refine Nat.mul_le_mul_left _ ?_
      calc 2 ^ j ≤ 2 ^ 744 := Nat.pow_le_pow_right (by decide) (by omega)
        _ ≤ 5 ^ 330 := by decide +kernel
    exact absurd hsmall (Nat.not_lt.mpr (hbig.trans (Nat.mul_le_mul_right _ hsig)))
  have hunit : d.significand * 5 ^ k * unit = d.ticks * 10 ^ k := by
    have hu : unit = 2 ^ d.shift * 2 ^ k := by
      rw [← pow_add, hs, unit_eq]
    have ht : d.ticks = d.significand * 2 ^ d.shift := rfl
    rw [hu, h10, ht]
    ring
  have hscale := nearest_mul_right d.ticks 1 (Nat.pow_pos (n := k) (show 0 < 10 by decide))
  rw [Decimal.magnitude_of_order hpos (by omega) (by omega), if_neg (by omega), Int.neg_neg,
    Int.toNat_natCast, hunit, ← nearest_ticks d, ← hscale, Nat.one_mul]

/-- The exact decimal of a finite double rounds to it. -/
theorem magnitude_exact {d : Double} (hd : d.isFinite = true) (hz : d.isZero = false) :
    d.exact.magnitude = d.magnitude := by
  rw [exact]
  split
  next h => exact magnitude_exact_whole hd hz h
  next h => exact magnitude_exact_fraction hz (by omega) (by omega)

/-! ## The shortest decimal -/

theorem magnitude_rounded? {magnitude dropped : Nat} {number r : Decimal}
    (hr : rounded? magnitude number dropped = some r) : r.magnitude = magnitude := by
  rw [rounded?] at hr
  dsimp only at hr
  split at hr
  next hlow =>
    split at hr
    next h => exact Option.some.inj hr ▸ h.2
    next => exact Option.some.inj hr ▸ hlow
  · split at hr
    next h => exact Option.some.inj hr ▸ h.2
    next => cases hr

/-- The shortest decimal of a finite double rounds to it. -/
theorem magnitude_shortest {d : Double} (hd : d.isFinite = true) (hz : d.isZero = false) :
    d.shortest.magnitude = d.magnitude := by
  rw [shortest]
  generalize hr : (List.range _).findSome? _ = found
  cases found with
  | none => exact magnitude_exact hd hz
  | some r =>
    obtain ⟨n, -, hn⟩ := List.exists_of_findSome?_eq_some hr
    exact magnitude_rounded? hn

theorem coefficient_shortest_pos {d : Double} (hd : d.isFinite = true) (hz : d.isZero = false) :
    0 < d.shortest.coefficient := by
  refine Nat.pos_of_ne_zero fun h0 => ?_
  have hm := magnitude_shortest hd hz
  rw [Decimal.magnitude, if_pos h0] at hm
  rw [isZero, ← hm] at hz
  exact absurd hz (by decide)

/-- The double nearest to a decimal number is finite where there is one. -/
theorem isFinite_of_ofDecimal? {negative : Bool} {number : Decimal} {d : Double}
    (h : ofDecimal? negative number = some d) : d.isFinite = true := by
  rw [ofDecimal?] at h
  split at h
  next hm =>
    cases h
    exact isFinite_ofMagnitude negative hm
  next => cases h

end Double

end TypeGraph
