import TypeGraph.Double
import Mathlib.Data.Nat.Log
import Mathlib.Tactic.Ring

/-!
# Rounding to doubles

Rounding depends on the quotient alone (`Double.nearest_mul_right`), and the ticks of a finite
double round to its own magnitude (`Double.nearest_ticks`). So a whole number that a double stands
for gives the double back, except that there is one whole number for both zeros
(`Double.ofInt_integer?`).
-/

namespace TypeGraph

namespace Double

/-! ## Parts of a double -/

theorem unit_eq : unit = 2 ^ 1074 := by decide +kernel

theorem unit_pos : 0 < unit := by decide +kernel

/-- The double with the magnitude and the sign of a double is that double. -/
theorem ofMagnitude_magnitude (d : Double) : ofMagnitude d.isNegative d.magnitude = d := by
  obtain ⟨bits⟩ := d
  have hlt : bits.toNat < 2 ^ 64 := bits.toNat_lt
  have hp : Nat.pow 2 63 = 9223372036854775808 := rfl
  have hn : (bits.toNat % Nat.pow 2 63 +
      if decide (Nat.pow 2 63 ≤ bits.toNat) then Nat.pow 2 63 else 0) = bits.toNat := by
    rw [hp]
    simp only [decide_eq_true_eq]
    split <;> omega
  rw [ofMagnitude, magnitude, isNegative, hn, UInt64.ofNat_toNat]

theorem isFinite_iff (d : Double) : d.isFinite = true ↔ d.magnitude < infinity :=
  decide_eq_true_iff

/-- A magnitude in 63 bits is that of a double with either sign. -/
theorem magnitude_ofMagnitude (negative : Bool) {m : Nat} (hm : m < 2 ^ 63) :
    (ofMagnitude negative m).magnitude = m := by
  have h63 : Nat.pow 2 63 = 2 ^ 63 := rfl
  rw [magnitude, ofMagnitude, UInt64.toNat_ofNat', h63]
  cases negative
  · simp only [Bool.false_eq_true, if_false]
    omega
  · simp only [if_true]
    omega

/-- A magnitude below that of the infinities is that of a number. -/
theorem isFinite_ofMagnitude (negative : Bool) {m : Nat} (hm : m < infinity) :
    (ofMagnitude negative m).isFinite = true := by
  have hinf : infinity < 2 ^ 63 := by decide
  rw [isFinite_iff, magnitude_ofMagnitude negative (hm.trans hinf)]
  exact hm

/-- The two fields of the magnitude: the exponent and the fraction. -/
theorem magnitude_eq (d : Double) :
    d.magnitude / 2 ^ 52 * 2 ^ 52 + d.magnitude % 2 ^ 52 = d.magnitude := Nat.div_add_mod' ..

theorem significand_lt (d : Double) : d.significand < 2 ^ 53 := by
  have hf : d.magnitude % Nat.pow 2 52 < Nat.pow 2 52 := Nat.mod_lt _ (by decide)
  have hp : Nat.pow 2 52 = 4503599627370496 := rfl
  rw [significand]
  split <;> omega

theorem shift_le {d : Double} (hd : d.isFinite = true) : d.shift ≤ 2045 := by
  rw [isFinite_iff, infinity] at hd
  have : d.magnitude / Nat.pow 2 52 < 2047 := Nat.div_lt_of_lt_mul (by rwa [Nat.mul_comm])
  rw [shift]
  omega

/-- A number without an exponent is its fraction. -/
theorem ticks_subnormal {d : Double} (he : d.magnitude / 2 ^ 52 = 0) :
    d.shift = 0 ∧ d.ticks = d.magnitude ∧ d.magnitude < 2 ^ 52 := by
  have hlt : d.magnitude < 2 ^ 52 := Nat.lt_of_div_eq_zero (by decide) he
  have hs : d.shift = 0 := by rw [shift, Nat.pow_eq, he]
  refine ⟨hs, ?_, hlt⟩
  rw [ticks, hs, significand, Nat.pow_eq, if_pos he, Nat.mod_eq_of_lt hlt]
  exact Nat.mul_one _

/-- A number with an exponent has a leading bit in front of its fraction. -/
theorem ticks_normal {d : Double} (he : d.magnitude / 2 ^ 52 ≠ 0) :
    d.magnitude / 2 ^ 52 = d.shift + 1 ∧
      d.ticks = (2 ^ 52 + d.magnitude % 2 ^ 52) * 2 ^ d.shift := by
  refine ⟨?_, ?_⟩
  · rw [shift, Nat.pow_eq]
    omega
  · rw [ticks, significand, Nat.pow_eq, if_neg he]
    rfl

theorem ticks_eq_zero_iff (d : Double) : d.ticks = 0 ↔ d.isZero = true := by
  rw [isZero, decide_eq_true_iff]
  by_cases he : d.magnitude / 2 ^ 52 = 0
  · rw [(ticks_subnormal he).2.1]
  · rw [(ticks_normal he).2]
    have hpos : 0 < (2 ^ 52 + d.magnitude % 2 ^ 52) * 2 ^ d.shift :=
      Nat.mul_pos (by omega) (Nat.pow_pos (by decide))
    refine iff_of_false hpos.ne' fun h0 => he ?_
    rw [h0, Nat.zero_div]

/-! ## Rounding -/

theorem roundHalfEven_mul_right (a b : Nat) {k : Nat} (hk : 0 < k) :
    roundHalfEven (a * k) (b * k) = roundHalfEven a b := by
  have hlt : (2 * (a % b * k) < b * k) = (2 * (a % b) < b) := by
    rw [← Nat.mul_assoc]
    exact propext (Nat.mul_lt_mul_right hk)
  have heq : (2 * (a % b * k) = b * k) = (2 * (a % b) = b) := by
    rw [← Nat.mul_assoc]
    exact propext (Nat.mul_left_inj hk.ne')
  rw [roundHalfEven, roundHalfEven, Nat.mul_div_mul_right _ _ hk, Nat.mul_mod_mul_right]
  simp only [hlt, heq]

/-- A whole quotient is rounded to itself. -/
theorem roundHalfEven_exact (q : Nat) {b : Nat} (hb : 0 < b) : roundHalfEven (q * b) b = q := by
  rw [roundHalfEven, Nat.mul_div_cancel _ hb, Nat.mul_mod_left]
  exact if_pos (.inl hb)

/-- Rounding depends on the quotient alone. -/
theorem nearest_mul_right (a b : Nat) {k : Nat} (hk : 0 < k) :
    nearest (a * k) (b * k) = nearest a b := by
  rw [nearest, nearest, Nat.mul_div_mul_right _ _ hk, Nat.mul_right_comm,
    roundHalfEven_mul_right _ _ hk]

/-- The ticks of a number round to its magnitude. -/
theorem nearest_ticks (d : Double) : nearest d.ticks 1 = d.magnitude := by
  rw [nearest, Nat.div_one, Nat.one_mul, Nat.pow_eq, Nat.pow_eq]
  by_cases he : d.magnitude / 2 ^ 52 = 0
  · obtain ⟨-, ht, hlt⟩ := ticks_subnormal he
    have hlog : d.ticks.log2 - 52 = 0 := by
      by_cases h0 : d.ticks = 0
      · rw [h0]
        rfl
      · have : d.ticks.log2 < 52 := (Nat.log2_lt h0).mpr (ht ▸ hlt)
        omega
    have hexact := roundHalfEven_exact d.ticks Nat.one_pos
    rw [Nat.mul_one] at hexact
    rw [hlog, Nat.zero_mul, Nat.zero_add, Nat.pow_zero, hexact, ht]
  · obtain ⟨hs, ht⟩ := ticks_normal he
    have hf : d.magnitude % 2 ^ 52 < 2 ^ 52 := Nat.mod_lt _ (by decide)
    have hpos : 0 < 2 ^ d.shift := Nat.pow_pos (by decide)
    -- the leading bit stands at place 52 of the significand
    have hlog : d.ticks.log2 = 52 + d.shift := by
      have h0 : d.ticks ≠ 0 := by
        rw [ht]
        exact (Nat.mul_pos (by omega) hpos).ne'
      refine (Nat.log2_eq_iff h0).mpr ?_
      rw [ht]
      constructor
      · rw [Nat.pow_add]
        exact Nat.mul_le_mul_right _ (by omega)
      · rw [show 52 + d.shift + 1 = 53 + d.shift by omega, Nat.pow_add]
        exact Nat.mul_lt_mul_of_pos_right (by omega) hpos
    rw [hlog, Nat.add_sub_cancel_left, ht, roundHalfEven_exact _ hpos]
    have hm := magnitude_eq d
    rw [hs, Nat.add_mul, Nat.one_mul, Nat.add_assoc] at hm
    exact hm

/-! ## Whole numbers -/

/-- A zero without its sign; all other doubles stay. -/
def unsignedZero (d : Double) : Double := if d.isZero then ofMagnitude false 0 else d

theorem integer?_eq_some {d : Double} {i : Int} (hi : d.integer? = some i) :
    d.isFinite = true ∧ d.ticks = i.natAbs * unit ∧ (i < 0 → d.isNegative = true) ∧
      (0 < i → d.isNegative = false) := by
  rw [integer?] at hi
  split at hi
  next h =>
    obtain ⟨hf, hm⟩ := h
    have ht : d.ticks = d.ticks / unit * unit :=
      (Nat.div_mul_cancel (Nat.dvd_of_mod_eq_zero hm)).symm
    generalize d.ticks / unit = n at hi ht
    cases hneg : d.isNegative with
    | false =>
      obtain rfl : (n : Int) = i := by simpa [hneg] using hi
      exact ⟨hf, ht, fun hlt => absurd hlt (by omega), fun _ => rfl⟩
    | true =>
      obtain rfl : -(n : Int) = i := by simpa [hneg] using hi
      rw [Int.natAbs_neg]
      exact ⟨hf, ht, fun _ => rfl, fun hlt => absurd hlt (by omega)⟩
  · cases hi

/-- The whole number that a double stands for gives the double back, and `0` for both zeros. -/
theorem ofInt_integer? {d : Double} {i : Int} (hi : d.integer? = some i) :
    ofInt i = d.unsignedZero := by
  obtain ⟨-, ht, hneg, hpos⟩ := integer?_eq_some hi
  have hu : unit ≠ 0 := unit_pos.ne'
  rw [ofInt, ← ht, nearest_ticks, unsignedZero]
  by_cases hz : d.isZero = true
  · have h0 : i = 0 := by
      have := (ticks_eq_zero_iff d).mpr hz
      rw [ht, Nat.mul_eq_zero] at this
      omega
    have hm : d.magnitude = 0 := decide_eq_true_iff.mp hz
    rw [if_pos hz, h0, hm]
    rfl
  · have h0 : i ≠ 0 := by
      rintro rfl
      rw [Int.natAbs_zero, Nat.zero_mul] at ht
      exact hz ((ticks_eq_zero_iff d).mp ht)
    have hsign : decide (i < 0) = d.isNegative := by
      by_cases hlt : i < 0
      · rw [hneg hlt, decide_eq_true hlt]
      · rw [hpos (by omega), decide_eq_false hlt]
    rw [if_neg hz, hsign, ofMagnitude_magnitude]

/-! ## Bounds -/

theorem roundHalfEven_le (a b : Nat) : roundHalfEven a b ≤ a / b + 1 := by
  simp only [roundHalfEven]
  split <;> omega

/-- A quotient of ticks below a power of two has a magnitude that grows with the exponent. -/
theorem nearest_le {a b k : Nat} (ha : a / b < 2 ^ (k + 53)) : nearest a b ≤ (k + 2) * 2 ^ 52 := by
  have h52 : Nat.pow 2 52 = 2 ^ 52 := rfl
  have hpow : Nat.pow 2 ((a / b).log2 - 52) = 2 ^ ((a / b).log2 - 52) := rfl
  have hlog : (a / b).log2 - 52 ≤ k := by
    obtain h0 | hpos := Nat.eq_zero_or_pos (a / b)
    · simp [h0]
    · have hlt := (Nat.log2_lt hpos.ne').mpr ha
      omega
  have hdiv : a / (b * 2 ^ ((a / b).log2 - 52)) < 2 ^ 53 := by
    rw [← Nat.div_div_eq_div_mul, Nat.div_lt_iff_lt_mul (Nat.two_pow_pos _), ← Nat.pow_add]
    refine Nat.lt_of_lt_of_le Nat.lt_log2_self (Nat.pow_le_pow_right (by decide) ?_)
    omega
  have hround : roundHalfEven a (b * 2 ^ ((a / b).log2 - 52)) ≤ 2 ^ 53 :=
    (roundHalfEven_le _ _).trans hdiv
  rw [nearest, h52, hpow]
  calc ((a / b).log2 - 52) * 2 ^ 52 + roundHalfEven a (b * 2 ^ ((a / b).log2 - 52)) ≤
        k * 2 ^ 52 + 2 ^ 53 := Nat.add_le_add (Nat.mul_le_mul_right _ hlog) hround
    _ = (k + 2) * 2 ^ 52 := by ring

/-- The double nearest to a whole number of 64 bits, signed or not, is finite. -/
theorem isFinite_ofInt {i : Int} (hi : i.natAbs ≤ 2 ^ 64) : (ofInt i).isFinite = true := by
  refine isFinite_ofMagnitude _ ?_
  have ha : i.natAbs * unit / 1 < 2 ^ (1086 + 53) :=
    calc i.natAbs * unit / 1 = i.natAbs * unit := Nat.div_one _
      _ ≤ 2 ^ 64 * unit := Nat.mul_le_mul_right _ hi
      _ < 2 ^ (1086 + 53) := by decide +kernel
  exact (nearest_le ha).trans_lt (by decide)

end Double

end TypeGraph
