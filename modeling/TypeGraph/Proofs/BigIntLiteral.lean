import TypeGraph.BigIntLiteral
import TypeGraph.Proofs.Integer

/-!
# Texts of bigint literals

What is read as a bigint literal is an integer with at most one `n` behind it (`SpellsBigInt`), and
the literal keeps its digits: `parse?_eq_some_iff` says what it is read from. So reading and
writing it keep the integer, and writing gives the text back without the `n`
(`BigIntLiteral.parsed_exactly`).
-/

namespace TypeGraph

/-- The texts of a bigint literal: those of an integer, with or without an `n` behind it. -/
inductive SpellsBigInt : List Char → ℤ → Prop
  | plain {cs : List Char} {i : ℤ} (h : SpellsInteger cs i) : SpellsBigInt cs i
  | suffixed {cs : List Char} {i : ℤ} (h : SpellsInteger cs i) : SpellsBigInt (cs ++ ['n']) i

/-- No integer has an `n` in its text. -/
theorem SpellsInteger.suffix_notMem {cs : List Char} {i : ℤ} (h : SpellsInteger cs i) : 'n' ∉ cs :=
  fun hn => absurd (h.mem_cases 'n' hn) (by decide)

/-- A text is that of one bigint literal at most. -/
theorem SpellsBigInt.unique {cs : List Char} {i j : ℤ} (hi : SpellsBigInt cs i)
    (hj : SpellsBigInt cs j) : i = j := by
  have hmem (cs : List Char) : 'n' ∈ cs ++ ['n'] := by simp
  cases hi with
  | plain h =>
    cases hj with
    | plain h' => exact h.unique h'
    | suffixed h' => exact absurd (hmem _) h.suffix_notMem
  | @suffixed ds _ h =>
    generalize hcs : ds ++ ['n'] = cs at hj
    cases hj with
    | plain h' => exact absurd (hcs ▸ hmem ds) h'.suffix_notMem
    | suffixed h' => exact h.unique (List.append_cancel_right hcs ▸ h')

namespace BigIntLiteral

variable {b : BigIntLiteral} {text : String}

/-- The integer that a literal stands for. -/
def value (b : BigIntLiteral) : ℤ :=
  if b.negative then -(digitsValue b.digits.toList : ℤ) else digitsValue b.digits.toList

theorem toList_text (b : BigIntLiteral) :
    b.text.toList = if b.negative then '-' :: b.digits.toList else b.digits.toList := by
  rw [BigIntLiteral.text, String.toList_append]
  cases b.negative <;> rfl

/-- The text of a literal spells the integer that it stands for. -/
theorem spells_text (hd : IsDigits b.digits.toList) : SpellsInteger b.text.toList b.value := by
  rw [toList_text, value, digitsValue_eq_placeValue]
  cases b.negative with
  | false => exact .unsigned hd
  | true => exact .negative hd

/-- What spells an integer is the text of a literal. -/
theorem exists_text {cs : List Char} {i : ℤ} (h : SpellsInteger cs i) :
    ∃ b : BigIntLiteral, IsDigits b.digits.toList ∧ cs = b.text.toList := by
  cases h with
  | unsigned hd => exact ⟨⟨false, .ofList cs⟩, by simpa using hd, by simp [toList_text]⟩
  | @negative ds hd => exact ⟨⟨true, .ofList ds⟩, by simpa using hd, by simp [toList_text]⟩

/-- The digits of a literal are zeros exactly if it stands for zero. -/
theorem isZero_iff (hd : IsDigits b.digits.toList) : b.isZero = true ↔ b.value = 0 := by
  have hvalue : b.value = 0 ↔ placeValue b.digits.toList = 0 := by
    rw [value, digitsValue_eq_placeValue]
    split <;> omega
  rw [hvalue, placeValue_eq_zero_iff hd.isDigit, isZero, List.all_eq_true]
  simp only [decide_eq_true_eq]

/-! ## Reading -/

theorem splitSign_cases {cs rest : List Char} {negative : Bool}
    (h : splitSign cs = (negative, rest)) : cs = if negative then '-' :: rest else rest := by
  rw [splitSign.eq_def] at h
  split at h <;> cases h <;> rfl

theorem splitSign_digits {ds : List Char} (hd : IsDigits ds) (negative : Bool)
    (rest : List Char) :
    splitSign (if negative then '-' :: (ds ++ rest) else ds ++ rest) = (negative, ds ++ rest) := by
  cases negative with
  | true => rfl
  | false =>
    obtain ⟨c, ds, rfl⟩ := List.exists_cons_of_ne_nil hd.ne_nil
    have hc : c ≠ '-' := fun h => hd.ne_cons_minus ds (h ▸ rfl)
    simp [splitSign, hc]

theorem dropSuffix_cases (cs : List Char) : cs = dropSuffix cs ∨ cs = dropSuffix cs ++ ['n'] := by
  rw [dropSuffix]
  split
  next h => exact .inr (List.dropLast_append_getLast? 'n' h).symm
  next => exact .inl rfl

/-- Behind digits a suffix is taken off. -/
theorem dropSuffix_digits {ds : List Char} (hd : IsDigits ds) :
    dropSuffix ds = ds ∧ dropSuffix (ds ++ ['n']) = ds := by
  have hlast : ds.getLast? ≠ some 'n' := fun h =>
    absurd (hd.isDigit 'n' (List.mem_of_getLast? h)) (by decide)
  constructor
  · rw [dropSuffix, if_neg hlast]
  · rw [dropSuffix, List.getLast?_concat, if_pos rfl, List.dropLast_concat]

/-- A literal of digits is read from its text, with or without an `n` behind it, and from nothing
else. -/
theorem parse?_eq_some_iff :
    parse? text = some b ↔
      IsDigits b.digits.toList ∧ (text = b.text ∨ text = b.text ++ "n") := by
  constructor
  · intro h
    obtain ⟨negative, unsigned, hsplit⟩ : ∃ negative unsigned,
      splitSign text.toList = (negative, unsigned) := ⟨_, _, rfl⟩
    have hsign := splitSign_cases hsplit
    have hsuffix := dropSuffix_cases unsigned
    rw [parse?, hsplit] at h
    dsimp only at h
    generalize dropSuffix unsigned = ds at h hsuffix
    split at h
    next hds =>
      cases h
      refine ⟨?_, ?_⟩
      · rw [String.toList_ofList]
        exact ⟨hds.1, List.all_eq_true.mp hds.2⟩
      · -- the sign and the suffix are those that were taken off
        simp only [← String.toList_inj, String.toList_append, toList_text, String.toList_ofList]
        rw [hsign]
        rcases hsuffix with rfl | hsuffix
        · exact .inl rfl
        · refine .inr ?_
          rw [hsuffix]
          cases negative <;> rfl
    next => cases h
  · rintro ⟨hd, htext⟩
    have hread (rest : List Char) (hrest : dropSuffix (b.digits.toList ++ rest) = b.digits.toList)
        (ht : text.toList = b.text.toList ++ rest) : parse? text = some b := by
      have hlist : text.toList = if b.negative then '-' :: (b.digits.toList ++ rest)
          else b.digits.toList ++ rest := by
        rw [ht, toList_text]
        cases b.negative <;> rfl
      rw [parse?, hlist, splitSign_digits hd]
      simp only [hrest]
      rw [if_pos ⟨hd.ne_nil, List.all_eq_true.mpr hd.isDigit⟩, String.ofList_toList]
    rcases htext with rfl | rfl
    · exact hread [] (by rw [List.append_nil, (dropSuffix_digits hd).1]) (List.append_nil _).symm
    · exact hread ['n'] (dropSuffix_digits hd).2 (String.toList_append ..)

/-- What is read as a bigint literal is a text of one. It is written back without its `n`, which is
read as the same literal, and the literal stands for the integer that the text spells. Every literal
of digits is read back from its text, also with an `n` behind it. -/
theorem parsed_exactly :
    (∀ text : String, (∃ b, parse? text = some b) ↔ ∃ i, SpellsBigInt text.toList i) ∧
    (∀ (text : String) (b : BigIntLiteral), parse? text = some b →
      ((text = b.text ∨ text = b.text ++ "n") ∧ 'n' ∉ b.text.toList) ∧
      parse? b.text = some b ∧
      (∀ i, SpellsBigInt text.toList i ↔ i = b.value) ∧
      (b.isZero = true ↔ b.value = 0)) ∧
    ∀ b : BigIntLiteral, IsDigits b.digits.toList →
      parse? b.text = some b ∧ parse? (b.text ++ "n") = some b := by
  have hspells {text : String} {b : BigIntLiteral} (h : parse? text = some b) :
      SpellsBigInt text.toList b.value := by
    obtain ⟨hd, rfl | rfl⟩ := parse?_eq_some_iff.mp h
    · exact .plain (spells_text hd)
    · rw [String.toList_append]
      exact .suffixed (spells_text hd)
  refine ⟨fun text => ⟨?_, ?_⟩, fun text b h => ?_, fun b hd => ?_⟩
  · rintro ⟨b, hb⟩
    exact ⟨b.value, hspells hb⟩
  · rintro ⟨i, hi⟩
    generalize hcs : text.toList = cs at hi
    cases hi with
    | plain h =>
      obtain ⟨b, hd, hb⟩ := exists_text h
      exact ⟨b, parse?_eq_some_iff.mpr ⟨hd, .inl (String.toList_injective (hcs.trans hb))⟩⟩
    | suffixed h =>
      obtain ⟨b, hd, rfl⟩ := exists_text h
      refine ⟨b, parse?_eq_some_iff.mpr ⟨hd, .inr (String.toList_injective ?_)⟩⟩
      rw [hcs, String.toList_append]
      rfl
  · obtain ⟨hd, htext⟩ := parse?_eq_some_iff.mp h
    refine ⟨⟨htext, (spells_text hd).suffix_notMem⟩, parse?_eq_some_iff.mpr ⟨hd, .inl rfl⟩,
      fun i => ⟨fun hi => hi.unique (hspells h), fun hi => hi ▸ hspells h⟩, isZero_iff hd⟩
  · exact ⟨parse?_eq_some_iff.mpr ⟨hd, .inl rfl⟩, parse?_eq_some_iff.mpr ⟨hd, .inr rfl⟩⟩

/-- Zeros in front stay, and count for nothing. -/
theorem parsed_exactly_leadingZeros :
    let b : BigIntLiteral := ⟨true, "007"⟩
    (parse? "-007n" = some b ∧ "-007n" = b.text ++ "n" ∧ SpellsBigInt "-007n".toList (-7) ∧
      b.isZero = false) ∧
      IsDigits b.digits.toList ∧ parse? (b.text ++ "n") = some b := by
  intro b
  obtain ⟨-, hread, hwrite⟩ := parsed_exactly
  have hd : IsDigits b.digits.toList := ⟨by decide, List.all_eq_true.mp (by decide)⟩
  have hparse : parse? "-007n" = some b := by decide
  obtain ⟨-, -, hvalue, hzero⟩ := hread "-007n" b hparse
  have hb : b.value = -7 := by decide
  refine ⟨⟨hparse, by decide, (hvalue _).mpr hb.symm, ?_⟩, hd, (hwrite b hd).2⟩
  rw [Bool.eq_false_iff, ne_eq, hzero, hb]
  decide

end BigIntLiteral

end TypeGraph
