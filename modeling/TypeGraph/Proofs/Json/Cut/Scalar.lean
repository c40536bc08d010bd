import TypeGraph.Proofs.Json.Text
import Mathlib.Tactic.IntervalCases

/-!
# Scalars that are cut off

`CutOff text cut` says that a text lost its end. Words and strings that are cut off are found cut
short at the end of the text, without any other flaw in front of it (`Draft.wordOfChars_cut`,
`Quoted.ofChars_cut`).

The first digits of a number are a number themselves. It is in range if the whole text has few
digits before the point and a small exponent (`UnsignedText.cut`, `UnsignedText.value_ok`), as an
exponent that loses a digit is divided by ten at least. What is written for a number is such a text
(`Number.chars_cases`), so a number that is cut off is found cut short or read as another number
(`Draft.valueOfChars_cut_number`).
-/

namespace TypeGraph

/-- A text without its end. -/
def CutOff (text cut : List Char) : Prop := ∃ q, q ≠ [] ∧ cut ++ q = text

namespace CutOff

variable {as bs p : List Char} {c : Char}

theorem not_nil : ¬ CutOff [] p := by
  rintro ⟨q, hq, hp⟩
  exact hq (List.append_eq_nil_iff.mp hp).2

theorem eq_take (h : CutOff as p) : ∃ n < as.length, p = as.take n := by
  obtain ⟨q, hq, rfl⟩ := h
  exact ⟨p.length, by simp [List.length_pos_iff, hq], by simp⟩

theorem nil_of_singleton (h : CutOff [c] p) : p = [] := by
  obtain ⟨q, hq, hp⟩ := h
  cases p with
  | nil => rfl
  | cons d p => simp_all

/-- Two texts are cut off in the first or in the second. -/
theorem append_cases (h : CutOff (as ++ bs) p) :
    CutOff as p ∨ ∃ r, p = as ++ r ∧ CutOff bs r := by
  obtain ⟨q, hq, hp⟩ := h
  rcases List.append_eq_append_iff.mp hp with ⟨r, rfl, rfl⟩ | ⟨r, rfl, rfl⟩
  · obtain rfl | hr := eq_or_ne r []
    · exact .inr ⟨[], by simp, bs, hq, rfl⟩
    · exact .inl ⟨r, hr, rfl⟩
  · exact .inr ⟨r, rfl, q, hq, rfl⟩

theorem cons_cases (h : CutOff (c :: bs) p) : p = [] ∨ ∃ r, p = c :: r ∧ CutOff bs r := by
  rcases (show CutOff ([c] ++ bs) p from h).append_cases with hnil | hr
  · exact .inl hnil.nil_of_singleton
  · exact .inr hr

/-- A text is cut off in front of one of its characters or behind it. -/
theorem at_cases (h : CutOff (as ++ c :: bs) p) :
    (p = as ∨ CutOff as p) ∨ ∃ r, p = as ++ c :: r ∧ CutOff bs r := by
  rcases h.append_cases with has | ⟨q, rfl, hq⟩
  · exact .inl (.inr has)
  rcases hq.cons_cases with rfl | ⟨r, rfl, hr⟩
  · exact .inl (.inl (List.append_nil _))
  · exact .inr ⟨r, rfl, hr⟩

end CutOff

/-! ## Digits -/

theorem le_ofDigitChars (ds : List Char) (n : Nat) : n ≤ Nat.ofDigitChars 10 ds n := by
  induction ds generalizing n with
  | nil => exact le_rfl
  | cons d ds ih =>
    rw [Nat.ofDigitChars_cons]
    exact (by omega : n ≤ 10 * n + (d.toNat - '0'.toNat)).trans (ih _)

theorem ofDigitChars_lt {ds : List Char} (hd : ∀ c ∈ ds, c.isDigit = true) (n : Nat) :
    Nat.ofDigitChars 10 ds n < (n + 1) * 10 ^ ds.length := by
  induction ds generalizing n with
  | nil => simp
  | cons d ds ih =>
    rw [List.forall_mem_cons] at hd
    have hdigit : d.toNat - '0'.toNat ≤ 9 := by
      have hup : d.toNat ≤ '9'.toNat := (Char.isDigit_iff_toNat.mp hd.1).2
      exact Nat.sub_le_sub_right hup '0'.toNat
    calc Nat.ofDigitChars 10 (d :: ds) n =
          Nat.ofDigitChars 10 ds (10 * n + (d.toNat - '0'.toNat)) := Nat.ofDigitChars_cons
      _ < (10 * n + (d.toNat - '0'.toNat) + 1) * 10 ^ ds.length := ih hd.2 _
      _ ≤ (n + 1) * 10 * 10 ^ ds.length := Nat.mul_le_mul_right _ (by omega)
      _ = (n + 1) * 10 ^ (ds.length + 1) := by rw [Nat.pow_succ', Nat.mul_assoc]

/-- Digits spell a number below the power of ten that they have places for. -/
theorem digitsValue_lt {ds : List Char} (hd : ∀ c ∈ ds, c.isDigit = true) :
    digitsValue ds < 10 ^ ds.length := by
  have h := ofDigitChars_lt hd 0
  rwa [Nat.zero_add, Nat.one_mul, ← digitsValue_eq] at h

/-- A number that loses its last digits is divided by ten at least. -/
theorem digitsValue_cut {ds p : List Char} (h : CutOff ds p) :
    10 * digitsValue p ≤ digitsValue ds := by
  obtain ⟨q, hq, rfl⟩ := h
  obtain ⟨c, q, rfl⟩ := List.exists_cons_of_ne_nil hq
  rw [digitsValue_eq, digitsValue_eq, Nat.ofDigitChars_append, Nat.ofDigitChars_cons]
  exact (Nat.le_add_right _ _).trans (le_ofDigitChars q _)

/-- Digits that lose their end are none, or fewer. -/
theorem IsDigits.cut {ds p : List Char} (hd : IsDigits ds) (h : CutOff ds p) :
    p = [] ∨ IsDigits p ∧ 10 * digitsValue p ≤ digitsValue ds := by
  have hvalue := digitsValue_cut h
  obtain ⟨q, -, rfl⟩ := h
  obtain rfl | hp := eq_or_ne p []
  · exact .inl rfl
  · exact .inr ⟨⟨hp, fun c hc => hd.isDigit c (List.mem_append_left _ hc)⟩, hvalue⟩

theorem IsWhole.cut {ds p : List Char} (hd : IsWhole ds) (h : CutOff ds p) :
    p = [] ∨ IsWhole p := by
  rcases hd.toIsDigits.cut h with hp | ⟨hp, -⟩
  · exact .inl hp
  · refine .inr ⟨hp, fun h0 => ?_⟩
    obtain ⟨q, hq, rfl⟩ := h
    -- a zero in front is the only digit
    have hall := hd.leading (by rw [List.head?_append, h0]; rfl)
    rcases List.append_eq_singleton_iff.mp hall with ⟨rfl, -⟩ | ⟨rfl, rfl⟩
    · exact absurd rfl hp.ne_nil
    · exact absurd rfl hq

/-! ## Numbers -/

/-- A number has no more digits in front of its point than are written there and its exponent
adds. -/
theorem SpellsNumeral.order_le {cs : List Char} {n : Numeral} (h : SpellsNumeral cs n) :
    n.decimal.order ≤ n.whole.length + n.exponent := by
  obtain ⟨negative, hw, hf, he⟩ := h
  rename_i ws fs es fraction exponent
  have hfraction : ∀ c ∈ fraction.getD [], c.isDigit = true := by
    cases hf with
    | none => exact List.forall_mem_nil _
    | some hd => exact hd.isDigit
  have hlen : 0 < (ws ++ fraction.getD []).length := by simp [hw.ne_nil, List.length_pos_iff]
  have hlt := digitsValue_lt (List.forall_mem_append.mpr ⟨hw.isDigit, hfraction⟩)
  have hcount := (Decimal.digitCount_le_iff hlen).mpr hlt
  rw [List.length_append] at hcount
  dsimp only [Numeral.decimal, Decimal.order]
  omega

/-- The text of a number without its sign, with no more than some digits before the point and no
larger exponent than another number. -/
inductive UnsignedText (digits : Nat) (size : Int) : List Char → Prop
  | mk {ws fs es : List Char} {fraction : Option (List Char)} {exponent : Option Int}
      (hw : IsWhole ws) (hf : SpellsFraction fs fraction) (he : SpellsExponent es exponent)
      (hdigits : ws.length ≤ digits) (hsize : exponent.getD 0 ≤ size) :
      UnsignedText digits size (ws ++ (fs ++ es))

/-- A fraction that is cut off is left out, or a shorter one, unless it ends behind its point. -/
theorem SpellsFraction.cut {fs p : List Char} {fraction : Option (List Char)}
    (hf : SpellsFraction fs fraction) (h : CutOff fs p) :
    (∃ cut, SpellsFraction p cut) ∨ p = ['.'] := by
  cases hf with
  | none => exact absurd h CutOff.not_nil
  | some hd =>
    rcases h.cons_cases with rfl | ⟨r, rfl, hr⟩
    · exact .inl ⟨_, .none⟩
    rcases hd.cut hr with rfl | ⟨hdigits, -⟩
    · exact .inr rfl
    · exact .inl ⟨_, .some hdigits⟩

/-- An exponent that is cut off is left out, or it has lost a digit, unless it has no digits. -/
theorem SpellsExponent.cut {es p : List Char} {exponent : Option Int} {k : Int} (hk : 0 ≤ k)
    (he : SpellsExponent es exponent) (hsize : exponent.getD 0 ≤ 10 * k) (h : CutOff es p) :
    (∃ cut, SpellsExponent p cut ∧ cut.getD 0 ≤ k) ∨
      ∃ c r, p = c :: r ∧ (c = 'e' ∨ c = 'E') ∧
        TypeGraph.exponentDigits p = .error (.cutShort, .malformed) := by
  cases he with
  | none => exact absurd h CutOff.not_nil
  | @unsigned c ds hc hd =>
    rcases h.cons_cases with rfl | ⟨r, rfl, hr⟩
    · exact .inl ⟨_, .none, hk⟩
    rcases hd.cut hr with rfl | ⟨hdigits, hle⟩
    · exact .inr ⟨c, [], rfl, hc, if_pos hc⟩
    · refine .inl ⟨_, .unsigned hc hdigits, ?_⟩
      simp only [Option.getD_some] at hsize ⊢
      omega
  | @plus c ds hc hd =>
    rcases h.cons_cases with rfl | ⟨r, rfl, hr⟩
    · exact .inl ⟨_, .none, hk⟩
    rcases hr.cons_cases with rfl | ⟨s, rfl, hs⟩
    · exact .inr ⟨c, [], rfl, hc, if_pos hc⟩
    rcases hd.cut hs with rfl | ⟨hdigits, hle⟩
    · exact .inr ⟨c, ['+'], rfl, hc, if_pos hc⟩
    · refine .inl ⟨_, .plus hc hdigits, ?_⟩
      simp only [Option.getD_some] at hsize ⊢
      omega
  | @minus c ds hc hd =>
    rcases h.cons_cases with rfl | ⟨r, rfl, hr⟩
    · exact .inl ⟨_, .none, hk⟩
    rcases hr.cons_cases with rfl | ⟨s, rfl, hs⟩
    · exact .inr ⟨c, [], rfl, hc, if_pos hc⟩
    rcases hd.cut hs with rfl | ⟨hdigits, hle⟩
    · exact .inr ⟨c, ['-'], rfl, hc, if_pos hc⟩
    · refine .inl ⟨_, .minus hc hdigits, ?_⟩
      simp only [Option.getD_some]
      omega

namespace UnsignedText

variable {digits : Nat} {size : Int} {text p : List Char}

theorem mono {digits' : Nat} {size' : Int} (h : UnsignedText digits size text)
    (hd : digits ≤ digits') (hs : size ≤ size') : UnsignedText digits' size' text := by
  obtain ⟨hw, hf, he, hdigits, hsize⟩ := h
  exact .mk hw hf he (hdigits.trans hd) (hsize.trans hs)

theorem head (h : UnsignedText digits size text) :
    ∃ c more, text = c :: more ∧ c.isDigit = true := by
  obtain ⟨hw, hf, he, hdigits, hsize⟩ := h
  obtain ⟨d, ds, rfl⟩ := List.exists_cons_of_ne_nil hw.ne_nil
  exact ⟨d, _, rfl, hw.isDigit d List.mem_cons_self⟩

/-- A number that is cut off has not more digits and a tenth of the exponent, or it ends where a
digit must stand. -/
theorem cut (hs : 0 ≤ size) (h : UnsignedText digits (10 * size) text) (hc : CutOff text p) :
    UnsignedText digits size p ∨
      ∀ negative, Numeral.ofChars negative p = .error (.cutShort, .malformed) := by
  obtain ⟨hw, hf, he, hdigits, hsize⟩ := h
  rename_i ws fs es fraction exponent
  rcases hc.append_cases with hws | ⟨p, rfl, hrest⟩
  · rcases hw.cut hws with rfl | hp
    · exact .inr fun negative => rfl
    · obtain ⟨q, hq, rfl⟩ := hws
      rw [List.length_append] at hdigits
      have hplain := UnsignedText.mk hp .none .none (by omega : p.length ≤ digits) hs
      rw [List.append_nil, List.append_nil] at hplain
      exact .inl hplain
  rcases hrest.append_cases with hfs | ⟨r, rfl, hes⟩
  · rcases hf.cut hfs with ⟨cut, hcut⟩ | rfl
    · have hplain := UnsignedText.mk hw hcut .none hdigits hs
      rw [List.append_nil] at hplain
      exact .inl hplain
    · refine .inr fun negative => ?_
      have hwhole := wholeDigits_append hw (show EndsDigits ['.'] by simp [EndsDigits])
      simp only [Numeral.ofChars, hwhole, bind, Except.bind]
      rfl
  · rcases he.cut hs hsize hes with ⟨cut, hcut, hle⟩ | ⟨c, more, rfl, hc, hexp⟩
    · exact .inl (.mk hw hf hcut hdigits hle)
    · have hends : EndsDigits (c :: more) ∧ ∀ d ∈ (c :: more).head?, d ≠ '.' := by
        rcases hc with rfl | rfl <;> simp [EndsDigits]
      have hread := hf.fractionDigits hends.1 hends.2
      have hwhole := wholeDigits_append hw hread.1
      refine .inr fun negative => ?_
      simp only [Numeral.ofChars, hwhole, hread.2, hexp, bind, Except.bind]

/-- A number with few digits and a small exponent is in range. -/
theorem value_ok (negative : Bool) (h : UnsignedText digits size text)
    (hrange : digits + size ≤ 300) :
    ∃ n v, Numeral.ofChars negative text = .ok (n, []) ∧ n.value = .ok v := by
  obtain ⟨hw, hf, he, hdigits, hsize⟩ := h
  rename_i ws fs es fraction exponent
  have hn := SpellsNumeral.mk negative hw hf he
  have horder : _ ≤ (300 : Int) := hn.order_le.trans (by dsimp only; omega)
  obtain ⟨v, hv⟩ := Numeral.exists_value (Decimal.magnitude_lt_infinity horder)
  obtain ⟨text, htext, hread⟩ := hn.ofChars (show EndsNumber [] by simp [EndsNumber])
  obtain rfl : ws ++ (fs ++ es) = text := by
    cases negative with
    | true => exact (List.cons.inj htext).2
    | false => exact htext
  rw [List.append_nil] at hread
  exact ⟨_, v, hread, hv⟩

end UnsignedText

/-! ## Written numbers -/

/-- Every layout of digits has few of them before the point. -/
theorem Double.unsignedText_layout {ds : List Char} {place size : Int} (hd : IsLeading ds)
    (hplace : place ≤ size) (hsize : 0 ≤ size) : UnsignedText 16 size (layout ds place) := by
  have hdigits {ws fs : List Char} (hw : IsWhole ws) (hl : ws.length ≤ 16) (hf : IsDigits fs) :
      UnsignedText 16 size (ws ++ '.' :: fs) := by
    have h := UnsignedText.mk hw (.some hf) .none hl hsize
    rwa [List.append_nil] at h
  have hdrop {k : Nat} (hk : k < ds.length) : IsDigits (ds.drop k) :=
    ⟨by simpa using hk, fun c hc => hd.isDigit c (List.mem_of_mem_drop hc)⟩
  rw [layout]
  split
  next =>
    -- one digit before the point, and the place as the exponent
    have hf : ∃ fraction, SpellsFraction (if ds.length ≤ 1 then [] else '.' :: ds.drop 1)
        fraction := by
      split
      next => exact ⟨_, .none⟩
      next hlt => exact ⟨_, .some (hdrop (by omega))⟩
    have he : ∃ exponent : Option Int, SpellsExponent
        ('e' :: (if place < 0 then '-' else '+') :: Nat.toDigits 10 place.natAbs) exponent ∧
        exponent.getD 0 ≤ size := by
      split
      next =>
        refine ⟨_, .minus (.inl rfl) (isDigits_toDigits _), ?_⟩
        rw [digitsValue_toDigits, Option.getD_some]
        omega
      next =>
        refine ⟨_, .plus (.inl rfl) (isDigits_toDigits _), ?_⟩
        rw [digitsValue_toDigits, Option.getD_some]
        omega
    obtain ⟨fraction, hf⟩ := hf
    obtain ⟨exponent, he, hle⟩ := he
    dsimp only
    rw [List.append_assoc]
    exact .mk (hd.isWhole_take 0) hf he (by rw [List.length_take]; omega) hle
  next =>
    split
    next =>
      refine hdigits (isWhole_toDigits 0) (by decide) ⟨by simp [hd.ne_nil], fun c hc => ?_⟩
      exact (List.mem_append.mp hc).elim (isDigit_zeros _ c) (hd.isDigit c)
    next =>
      dsimp only
      split
      next =>
        refine hdigits (hd.isWhole (isDigit_zeros _)) ?_ (isWhole_toDigits 0).toIsDigits
        rw [List.length_append, List.length_replicate]
        omega
      next =>
        refine hdigits (hd.isWhole_take place.toNat) ?_ (hdrop (by omega))
        rw [List.length_take]
        omega

/-- The text of a finite number has at most 16 digits before the point and an exponent in range. -/
theorem Double.unsignedText_unsignedChars {d : Double} (hd : d.isFinite = true) :
    UnsignedText 16 1000 d.unsignedChars := by
  rw [unsignedChars]
  by_cases hz : d.isZero = true
  · rw [if_pos hz]
    exact .mk (isWhole_toDigits 0) (.some (isDigits_toDigits 0)) .none (by decide) (by decide)
  · have hz' : d.isZero = false := Bool.eq_false_of_not_eq_true hz
    rw [if_neg hz]
    refine unsignedText_layout (trimZeros_toDigits (coefficient_shortest_pos hd hz')).1 ?_ (by decide)
    -- a larger decimal is rounded to no finite number
    by_contra hplace
    have hm := magnitude_shortest hd hz'
    rw [Decimal.magnitude, if_neg (coefficient_shortest_pos hd hz').ne', if_pos (by omega)] at hm
    exact absurd ((isFinite_iff d).mp hd) (by rw [hm]; exact Nat.lt_irrefl _)

/-- The text of a number has at most 20 digits before the point and an exponent of at most 1000. -/
theorem Number.chars_cases {n : Number} (hn : n.IsReadable) :
    ∃ (negative : Bool) (text : List Char),
      n.chars = (if negative then '-' :: text else text) ∧ UnsignedText 20 1000 text := by
  cases n with
  | integer i =>
    obtain ⟨hlow, hup⟩ := hn
    have hlen : (Nat.toDigits 10 i.natAbs).length ≤ 20 :=
      (Decimal.digitCount_le_iff (by decide)).mpr (by omega)
    refine ⟨decide (i < 0), Nat.toDigits 10 i.natAbs, by simp [chars, intChars], ?_⟩
    have h : UnsignedText 20 1000 (_ ++ ([] ++ [])) :=
      .mk (isWhole_toDigits i.natAbs) .none .none hlen (by decide)
    rwa [List.append_nil, List.append_nil] at h
  | float d =>
    exact ⟨d.isNegative, d.unsignedChars, Double.chars_eq d,
      (Double.unsignedText_unsignedChars hn).mono (by decide) le_rfl⟩

namespace Draft

/-- A draft that is found cut short, unless it is a number. -/
def CutNumber (d : Draft) : Prop :=
  ∀ k, d.toJson k = .error .cutShort ∨ ∃ v, d.toJson k = .ok (.number v)

theorem valueOfChars_nil (room levels : Nat) : valueOfChars room levels [] = (missing, []) := by
  rw [valueOfChars]
  rfl

theorem numberOfChars_cut {text p : List Char} (h : UnsignedText 20 1000 text)
    (hc : CutOff text p) (negative : Bool) :
    ∃ d, numberOfChars negative p = (d, []) ∧ CutNumber d := by
  rw [numberOfChars]
  rcases UnsignedText.cut (by decide : (0 : Int) ≤ 100) h hc with hp | hp
  · obtain ⟨n, v, hread, hv⟩ := hp.value_ok negative (by decide)
    rw [hread]
    exact ⟨_, rfl, fun k => .inr ⟨v, by rw [toJson, hv]; rfl⟩⟩
  · rw [hp negative]
    exact ⟨_, rfl, fun k => .inl (by rw [toJson]; rfl)⟩

/-- A number that is cut off is found cut short, or read as a number. -/
theorem valueOfChars_cut_number {n : Number} {p : List Char} (hn : n.IsReadable)
    (h : CutOff n.chars p) (room levels : Nat) :
    ∃ d, valueOfChars room levels p = (d, []) ∧ CutNumber d := by
  obtain ⟨negative, text, htext, hu⟩ := Number.chars_cases hn
  have hmissing : CutNumber missing := fun k => .inl (by rw [toJson])
  cases negative with
  | true =>
    rw [htext, if_pos rfl] at h
    rcases h.cons_cases with rfl | ⟨r, rfl, hr⟩
    · exact ⟨missing, valueOfChars_nil room levels, hmissing⟩
    · have hread : valueOfChars room levels ('-' :: r) = numberOfChars true r := by
        rw [valueOfChars]
        rfl
      rw [hread]
      exact numberOfChars_cut hu hr true
  | false =>
    obtain ⟨c, more, rfl, hc⟩ := hu.head
    rw [htext, if_neg Bool.false_ne_true] at h
    rcases h.cons_cases with rfl | ⟨r, rfl, -⟩
    · exact ⟨missing, valueOfChars_nil room levels, hmissing⟩
    · rw [valueOfChars_digit room levels r hc]
      exact numberOfChars_cut hu h false

end Draft

/-! ## Words -/

theorem dropWord_cut {ws p : List Char} (h : CutOff ws p) : dropWord ws p = .error .cutShort := by
  induction ws generalizing p with
  | nil => exact absurd h CutOff.not_nil
  | cons w ws ih =>
    rcases h.cons_cases with rfl | ⟨r, rfl, hr⟩
    · rfl
    · rw [dropWord, if_pos rfl, ih hr]

theorem Draft.wordOfChars_cut {ws p : List Char} (h : CutOff ws p) (s : Scalar) :
    wordOfChars ws s p = (flawed .cutShort, []) := by
  rw [wordOfChars, dropWord_cut h]

/-! ## Strings -/

/-- An escaped character that is cut off is found cut short. -/
theorem pieces_cut_escape {c : Char} {p : List Char} (h : CutOff (escape c) p) :
    pieces p = ([], some .cutShort, []) := by
  obtain ⟨n, hn, rfl⟩ := h.eq_take
  by_cases hc : c ∈ ['"', '\\', '\n', '\r', '\t', '\x08', '\x0c']
  · -- a backslash without its letter
    obtain ⟨d, hd⟩ : ∃ d, escape c = ['\\', d] := by
      simp only [List.mem_cons, List.not_mem_nil, or_false] at hc
      rcases hc with rfl | rfl | rfl | rfl | rfl | rfl | rfl <;> exact ⟨_, rfl⟩
    rw [hd] at hn ⊢
    obtain rfl | rfl : n = 0 ∨ n = 1 := by simp at hn; omega
    · rfl
    · rfl
  simp only [List.mem_cons, List.not_mem_nil, or_false, not_or] at hc
  obtain ⟨hq, hb, hn', hr, ht, hbs, hff⟩ := hc
  by_cases hlow : c.toNat < 0x20
  · -- fewer than four hexadecimal digits
    obtain ⟨d, hd⟩ : ∃ d, escape c = ['\\', 'u', '0', '0', '0', d] ∨
        escape c = ['\\', 'u', '0', '0', '1', d] := by
      refine ⟨hexDigit (c.toNat % 16), ?_⟩
      simp only [escape, hq, hb, hn', hr, ht, hbs, hff, hlow, if_false, if_true]
      obtain h0 | h0 : c.toNat / 16 = 0 ∨ c.toNat / 16 = 1 := by omega
      · exact .inl (by rw [h0]; rfl)
      · exact .inr (by rw [h0]; rfl)
    rcases hd with hd | hd
    all_goals
      rw [hd] at hn ⊢
      have hn : n < 6 := hn
      interval_cases n <;> rfl
  · have he : escape c = [c] := by simp [escape, hq, hb, hn', hr, ht, hbs, hff, hlow]
    rw [he] at hn ⊢
    obtain rfl : n = 0 := by simpa using hn
    rfl

/-- A string that is cut off is read up to the character where it was cut. -/
theorem pieces_cut {cs p : List Char} (h : CutOff (cs.flatMap escape ++ ['"']) p) :
    ∃ ds : List Char, pieces p = (ds.map piece, some .cutShort, []) := by
  induction cs generalizing p with
  | nil => exact ⟨[], by rw [h.nil_of_singleton]; rfl⟩
  | cons c cs ih =>
    rw [List.flatMap_cons, List.append_assoc] at h
    rcases h.append_cases with hc | ⟨r, rfl, hr⟩
    · exact ⟨[], pieces_cut_escape hc⟩
    · obtain ⟨ds, hds⟩ := ih hr
      exact ⟨c :: ds, by rw [pieces_escape, hds, List.map_cons]⟩

theorem joinPieces_cutShort (cs : List Char) :
    joinPieces (some .cutShort) (cs.map piece) = .error .cutShort := by
  induction cs with
  | nil => rfl
  | cons c cs ih =>
    rw [List.map_cons, joinPieces_piece, ih]
    rfl

/-- A string that is cut off is found cut short. -/
theorem Quoted.ofChars_cut {s : String} {p : List Char}
    (h : CutOff (s.toList.flatMap escape ++ ['"']) p) :
    Quoted.ofChars p = (⟨.error .cutShort, some .cutShort⟩, []) := by
  obtain ⟨ds, hds⟩ := pieces_cut h
  rw [ofChars, hds]
  simp only [joinPieces_cutShort]
  rfl

end TypeGraph
