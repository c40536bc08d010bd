import TypeGraph.Proofs.Json.Numbers

/-!
# Texts of integers

`SpellsInteger cs i` says that the text `cs` is an optional minus sign and decimal digits, which
denote the integer `i` by their places (`placeValue`). A text spells one integer at most
(`SpellsInteger.unique`), and the text that is written for an integer spells it
(`spellsInteger_intChars`).
-/

namespace TypeGraph

/-- The number that decimal digits denote by their places. -/
def placeValue : List Char → ℕ
  | [] => 0
  | c :: ds => (c.toNat - '0'.toNat) * 10 ^ ds.length + placeValue ds

/-- Digit by digit, a number is multiplied and added to. -/
theorem foldl_digits (n : ℕ) (ds : List Char) :
    ds.foldl (fun n c => n * 10 + (c.toNat - '0'.toNat)) n =
      n * 10 ^ ds.length + placeValue ds := by
  induction ds generalizing n with
  | nil => simp [placeValue]
  | cons c ds ih =>
    rw [List.foldl_cons, ih, placeValue, List.length_cons, pow_succ]
    ring

/-- Digits are read as the number that they denote by their places. -/
theorem digitsValue_eq_placeValue (ds : List Char) : digitsValue ds = placeValue ds := by
  rw [digitsValue, foldl_digits, Nat.zero_mul, Nat.zero_add]

/-- Only zeros denote zero. -/
theorem placeValue_eq_zero_iff {ds : List Char} (hd : ∀ c ∈ ds, c.isDigit = true) :
    placeValue ds = 0 ↔ ∀ c ∈ ds, c = '0' := by
  induction ds with
  | nil => simp [placeValue]
  | cons c ds ih =>
    rw [List.forall_mem_cons] at hd
    have hc : c.toNat - '0'.toNat = 0 ↔ c = '0' := by
      have hlow : '0'.toNat ≤ c.toNat := (Char.isDigit_iff_toNat.mp hd.1).1
      rw [Nat.sub_eq_zero_iff_le, ← Char.toNat_inj]
      omega
    have hpow : 10 ^ ds.length ≠ 0 := (Nat.pow_pos (by decide)).ne'
    rw [placeValue, Nat.add_eq_zero_iff, Nat.mul_eq_zero, or_iff_left hpow, hc, ih hd.2,
      List.forall_mem_cons]

/-- The texts of an integer: digits, with or without a minus sign in front. -/
inductive SpellsInteger : List Char → ℤ → Prop
  | unsigned {ds : List Char} (hd : IsDigits ds) : SpellsInteger ds (placeValue ds)
  | negative {ds : List Char} (hd : IsDigits ds) :
      SpellsInteger ('-' :: ds) (-(placeValue ds : ℤ))

/-- Digits do not start with a sign. -/
theorem IsDigits.ne_cons_minus {ds : List Char} (hd : IsDigits ds) (cs : List Char) :
    ds ≠ '-' :: cs := by
  rintro rfl
  exact absurd (hd.isDigit '-' List.mem_cons_self) (by decide)

namespace SpellsInteger

variable {cs : List Char} {i j : ℤ}

/-- A text spells one integer at most. -/
theorem unique (hi : SpellsInteger cs i) (hj : SpellsInteger cs j) : i = j := by
  cases hi with
  | unsigned hd =>
    cases hj with
    | unsigned => rfl
    | negative => exact absurd rfl (hd.ne_cons_minus _)
  | negative hd =>
    cases hj with
    | unsigned hd' => exact absurd rfl (hd'.ne_cons_minus _)
    | negative => rfl

/-- An integer is spelled by a sign and digits alone. -/
theorem mem_cases (h : SpellsInteger cs i) : ∀ c ∈ cs, c = '-' ∨ c.isDigit = true := by
  intro c hc
  cases h with
  | unsigned hd => exact .inr (hd.isDigit c hc)
  | negative hd => exact (List.mem_cons.mp hc).imp id (hd.isDigit c)

end SpellsInteger

/-- The text that is written for an integer spells it. -/
theorem spellsInteger_intChars (i : ℤ) : SpellsInteger (intChars i) i := by
  have hvalue : placeValue (Nat.toDigits 10 i.natAbs) = i.natAbs := by
    rw [← digitsValue_eq_placeValue, digitsValue_toDigits]
  have hd := isDigits_toDigits i.natAbs
  rw [intChars]
  split
  next hneg =>
    have h := SpellsInteger.negative hd
    rwa [hvalue, Int.ofNat_natAbs_of_nonpos hneg.le, Int.neg_neg] at h
  next hpos =>
    have h := SpellsInteger.unsigned hd
    rwa [hvalue, Int.natAbs_of_nonneg (Int.not_lt.mp hpos)] at h

end TypeGraph
