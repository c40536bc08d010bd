import TypeGraph.Json.Draft
import TypeGraph.Json.Writer
import TypeGraph.Proofs.Double.Decimal
import Mathlib.Data.List.DropRight

/-!
# Numbers that read back

A number is written as an integer (`intChars`) or in one of the layouts of a double
(`Double.layout`). Either way it is read to its last digit, if what follows could not be a part of
it (`EndsNumber`), and gives the number back (`Draft.valueOfChars_number`), an integer of 64 bits
as well as a finite double.
-/

namespace TypeGraph

/-! ## Digits -/

/-- One or more digits. -/
structure IsDigits (ds : List Char) : Prop where
  ne_nil : ds ≠ []
  isDigit : ∀ c ∈ ds, c.isDigit = true

/-- A text in front of which digits end. -/
def EndsDigits (rest : List Char) : Prop := ∀ c ∈ rest.head?, c.isDigit = false

/-- A text in front of which a number ends. -/
def EndsNumber (rest : List Char) : Prop :=
  ∀ c ∈ rest.head?, c.isDigit = false ∧ c ≠ '.' ∧ c ≠ 'e' ∧ c ≠ 'E'

theorem EndsNumber.endsDigits {rest : List Char} (h : EndsNumber rest) : EndsDigits rest :=
  fun c hc => (h c hc).1

theorem isDigits_toDigits (n : Nat) : IsDigits (Nat.toDigits 10 n) :=
  ⟨Nat.toDigits_ne_nil, fun _ hc => Nat.isDigit_of_mem_toDigits (by decide) (by decide) hc⟩

theorem digitsValue_eq (ds : List Char) : digitsValue ds = Nat.ofDigitChars 10 ds 0 := by
  simp only [digitsValue, Nat.ofDigitChars_eq_foldl, Nat.mul_comm]

@[simp] theorem digitsValue_toDigits (n : Nat) : digitsValue (Nat.toDigits 10 n) = n := by
  rw [digitsValue_eq, Nat.ofDigitChars_ten_toDigits]

/-- Zeros at the end multiply the number. -/
theorem digitsValue_append_zeros (ds : List Char) (k : Nat) :
    digitsValue (ds ++ List.replicate k '0') = digitsValue ds * 10 ^ k := by
  rw [digitsValue_eq, digitsValue_eq, Nat.ofDigitChars_append, Nat.ofDigitChars_replicate_zero,
    Nat.mul_comm]

/-- Zeros in front do not count. -/
theorem digitsValue_zeros_append (k : Nat) (ds : List Char) :
    digitsValue (List.replicate k '0' ++ ds) = digitsValue ds := by
  rw [digitsValue_eq, digitsValue_eq, Nat.ofDigitChars_append, Nat.ofDigitChars_replicate_zero,
    Nat.mul_zero]

/-- A positive number does not start with a zero. -/
theorem head?_toDigits {n : Nat} (hn : 0 < n) : (Nat.toDigits 10 n).head? ≠ some '0' := by
  induction n using Nat.strongRecOn with
  | ind n ih =>
    by_cases hlt : n < 10
    · rw [Nat.toDigits_of_lt_base hlt]
      intro h0
      rw [List.head?_cons, Option.some.injEq, Nat.digitChar_eq_zero] at h0
      omega
    · have h0 := ih (n / 10) (by omega) (by omega)
      obtain ⟨c, cs, hcs⟩ := List.exists_cons_of_ne_nil (isDigits_toDigits (n / 10)).ne_nil
      rw [hcs] at h0
      rw [Nat.toDigits_of_base_le (by decide) (by omega), hcs]
      exact h0

theorem someDigits_append {ds rest : List Char} (hd : IsDigits ds) (hr : EndsDigits rest) :
    someDigits (ds ++ rest) = .ok (ds, rest) := by
  have htake : (ds ++ rest).takeWhile Char.isDigit = ds := by
    rw [List.takeWhile_append_of_pos hd.isDigit]
    cases rest with
    | nil => simp
    | cons c rest => simp [hr c rfl]
  have hdrop : (ds ++ rest).dropWhile Char.isDigit = rest := by
    rw [List.dropWhile_append_of_pos hd.isDigit]
    cases rest with
    | nil => rfl
    | cons c rest => simp [hr c rfl]
  obtain ⟨c, ds, rfl⟩ := List.exists_cons_of_ne_nil hd.ne_nil
  simp only [someDigits, htake, hdrop]

/-! ## Parts of a numeral -/

/-- Digits that may stand before the point. -/
structure IsWhole (ds : List Char) : Prop extends IsDigits ds where
  leading : ds.head? = some '0' → ds = ['0']

theorem isWhole_toDigits (n : Nat) : IsWhole (Nat.toDigits 10 n) := by
  refine ⟨isDigits_toDigits n, fun h0 => ?_⟩
  obtain rfl | hn := Nat.eq_zero_or_pos n
  · rfl
  · exact absurd h0 (head?_toDigits hn)

theorem wholeDigits_append {ds rest : List Char} (hd : IsWhole ds) (hr : EndsDigits rest) :
    wholeDigits (ds ++ rest) = .ok (ds, rest) := by
  rw [wholeDigits, someDigits_append hd.toIsDigits hr]
  dsimp only [bind, Except.bind]
  split
  next => exact absurd (hd.leading rfl) (by simp)
  next => rfl

theorem fractionDigits_point {ds rest : List Char} (hd : IsDigits ds) (hr : EndsDigits rest) :
    fractionDigits ('.' :: (ds ++ rest)) = .ok (some ds, rest) := by
  rw [fractionDigits, someDigits_append hd hr]
  rfl

theorem fractionDigits_none {rest : List Char} (hr : ∀ c ∈ rest.head?, c ≠ '.') :
    fractionDigits rest = .ok (none, rest) := by
  rw [fractionDigits]
  · rfl
  · rintro cs rfl
    exact hr '.' rfl rfl

theorem exponentDigits_none {rest : List Char} (hr : EndsNumber rest) :
    exponentDigits rest = .ok (none, rest) := by
  cases rest with
  | nil => rfl
  | cons c rest =>
    obtain ⟨-, -, he, hE⟩ := hr c rfl
    exact if_neg (by simp [he, hE])

/-- The digits of an exponent behind its sign. -/
theorem exponentDigits_sign (i : Int) {rest : List Char} (hr : EndsDigits rest) :
    exponentDigits ('e' :: (if i < 0 then '-' else '+') :: (Nat.toDigits 10 i.natAbs ++ rest)) =
      .ok (some i, rest) := by
  have hd := someDigits_append (isDigits_toDigits i.natAbs) hr
  by_cases hi : i < 0
  · have habs : -(i.natAbs : Int) = i := by omega
    rw [if_pos hi]
    simp only [exponentDigits, exponentSign, true_or, if_true, hd, bind, Except.bind, pure,
      Except.pure, digitsValue_toDigits, habs]
  · have habs : (i.natAbs : Int) = i := by omega
    rw [if_neg hi]
    simp only [exponentDigits, exponentSign, true_or, if_true, hd, bind, Except.bind, pure,
      Except.pure, digitsValue_toDigits, habs, Bool.false_eq_true, if_false]

namespace Numeral

/-- The decimal number that a numeral spells, without its sign. -/
def decimal (n : Numeral) : Decimal :=
  ⟨digitsValue (n.whole ++ n.fraction), n.exponent - n.fraction.length⟩

theorem value_of_not_plain {n : Numeral} (hp : n.plain = false)
    (hm : n.decimal.magnitude < Double.infinity) :
    n.value = .ok (.float (Double.ofMagnitude n.negative n.decimal.magnitude)) := by
  rw [value, hp, ← decimal, Double.ofDecimal?, if_pos hm]
  rfl

/-- A numeral in the range of doubles has a value. -/
theorem exists_value {n : Numeral} (hm : n.decimal.magnitude < Double.infinity) :
    ∃ v, n.value = .ok v := by
  rw [value, ← decimal, Double.ofDecimal?, if_pos hm]
  dsimp only
  split_ifs <;> exact ⟨_, rfl⟩

/-! ## Forms of a numeral -/

/-- Digits alone. -/
theorem ofChars_plain (negative : Bool) {ds rest : List Char} (hd : IsWhole ds)
    (hr : EndsNumber rest) :
    ofChars negative (ds ++ rest) = .ok (⟨negative, ds, [], 0, true⟩, rest) := by
  have hw := wholeDigits_append hd hr.endsDigits
  have hf := fractionDigits_none fun c hc => (hr c hc).2.1
  have he := exponentDigits_none hr
  simp [ofChars, hw, hf, he, bind, Except.bind, pure, Except.pure]

/-- Digits, a point and digits. -/
theorem ofChars_point (negative : Bool) {ds fs rest : List Char} (hd : IsWhole ds)
    (hfs : IsDigits fs) (hr : EndsNumber rest) :
    ofChars negative (ds ++ '.' :: (fs ++ rest)) = .ok (⟨negative, ds, fs, 0, false⟩, rest) := by
  have hp : EndsDigits ('.' :: (fs ++ rest)) := by simp [EndsDigits]
  have hw := wholeDigits_append hd hp
  have hf := fractionDigits_point hfs hr.endsDigits
  have he := exponentDigits_none hr
  simp [ofChars, hw, hf, he, bind, Except.bind, pure, Except.pure]

/-- Digits, any fraction and an exponent. -/
theorem ofChars_exponent (negative : Bool) {ds fs rest : List Char} (i : Int) (hd : IsWhole ds)
    (hfs : ∀ c ∈ fs, c.isDigit = true) (hr : EndsNumber rest) :
    ofChars negative (ds ++ ((if fs = [] then [] else '.' :: fs) ++
        'e' :: (if i < 0 then '-' else '+') :: (Nat.toDigits 10 i.natAbs ++ rest))) =
      .ok (⟨negative, ds, fs, i, false⟩, rest) := by
  have he := exponentDigits_sign i hr.endsDigits
  generalize htail : 'e' :: (if i < 0 then '-' else '+') :: (Nat.toDigits 10 i.natAbs ++ rest) =
    tail at he ⊢
  have htail' : EndsDigits tail ∧ ∀ c ∈ tail.head?, c ≠ '.' := by
    subst htail
    simp [EndsDigits]
  by_cases hnil : fs = []
  · subst hnil
    have hw := wholeDigits_append hd htail'.1
    have hf := fractionDigits_none htail'.2
    simp [ofChars, hw, hf, he, bind, Except.bind, pure, Except.pure]
  · have hp : EndsDigits ('.' :: (fs ++ tail)) := by simp [EndsDigits]
    have hw := wholeDigits_append hd hp
    have hf := fractionDigits_point ⟨hnil, hfs⟩ htail'.1
    simp [ofChars, hnil, hw, hf, he, bind, Except.bind, pure, Except.pure]

end Numeral

/-! ## Layouts of a double -/

namespace Double

/-- The digits without the zeros at their end, and those zeros. -/
theorem trimZeros_append (ds : List Char) : ∃ k, ds = trimZeros ds ++ List.replicate k '0' := by
  have hz : ∀ c ∈ ds.rtakeWhile (· = '0'), c = '0' := fun c hc => by
    simpa using List.mem_rtakeWhile_imp hc
  have hsplit := List.rdropWhile_append_rtakeWhile (p := (· = '0')) (l := ds)
  rw [List.eq_replicate_of_mem hz] at hsplit
  exact ⟨_, hsplit.symm⟩

/-- Digits whose first one is no zero. -/
structure IsLeading (ds : List Char) : Prop extends IsDigits ds where
  head_ne : ds.head? ≠ some '0'

/-- The digits of a positive number without the zeros at their end, and what they lack of it. -/
theorem trimZeros_toDigits {n : Nat} (hn : 0 < n) :
    IsLeading (trimZeros (Nat.toDigits 10 n)) ∧
      ∃ k, digitsValue (trimZeros (Nat.toDigits 10 n)) * 10 ^ k = n ∧
        (trimZeros (Nat.toDigits 10 n)).length + k = Decimal.digitCount n := by
  obtain ⟨k, hk⟩ := trimZeros_append (Nat.toDigits 10 n)
  have hvalue := digitsValue_toDigits n
  have hdigits := (isDigits_toDigits n).isDigit
  have hhead := head?_toDigits hn
  have hcount : Decimal.digitCount n = (Nat.toDigits 10 n).length := rfl
  rw [hcount]
  generalize trimZeros (Nat.toDigits 10 n) = ds at hk
  rw [hk] at hvalue hdigits hhead ⊢
  rw [digitsValue_append_zeros] at hvalue
  have hne : ds ≠ [] := by
    rintro rfl
    rw [digitsValue, List.foldl_nil, Nat.zero_mul] at hvalue
    omega
  refine ⟨⟨⟨hne, fun c hc => hdigits c (List.mem_append_left _ hc)⟩, fun h0 => hhead ?_⟩, k,
    hvalue, ?_⟩
  · rw [List.head?_append, h0]
    rfl
  · rw [List.length_append, List.length_replicate]

theorem IsLeading.isWhole {ds es : List Char} (h : IsLeading ds)
    (hes : ∀ c ∈ es, c.isDigit = true) : IsWhole (ds ++ es) := by
  obtain ⟨d, ds, rfl⟩ := List.exists_cons_of_ne_nil h.ne_nil
  refine ⟨⟨by simp, fun c hc => ?_⟩, fun h0 => absurd h0 h.head_ne⟩
  exact (List.mem_append.mp hc).elim (h.isDigit c) (hes c)

/-- The first of some digits may stand alone before the point, and all of them may. -/
theorem IsLeading.isWhole_take {ds : List Char} (h : IsLeading ds) (n : Nat) :
    IsWhole (ds.take (n + 1)) := by
  obtain ⟨d, ds, rfl⟩ := List.exists_cons_of_ne_nil h.ne_nil
  refine ⟨⟨by simp, fun c hc => h.isDigit c (List.mem_of_mem_take hc)⟩, fun h0 => ?_⟩
  exact absurd h0 h.head_ne

theorem isDigit_zeros (k : Nat) : ∀ c ∈ List.replicate k '0', c.isDigit = true := by
  intro c hc
  rw [List.eq_of_mem_replicate hc]
  rfl

/-- The decimal number with the given digits, the first of which has the given place. -/
def placed (ds : List Char) (place : Int) : Decimal := ⟨digitsValue ds, place + 1 - ds.length⟩

/-- A text is read up to a rest as a numeral that is no integer and rounds to the given
magnitude. -/
def Spells (negative : Bool) (text rest : List Char) (magnitude : Nat) : Prop :=
  ∃ n : Numeral, Numeral.ofChars negative (text ++ rest) = .ok (n, rest) ∧
    n.negative = negative ∧ n.plain = false ∧ n.decimal.magnitude = magnitude

section

variable {negative : Bool} {ds rest : List Char} {place : Int}

theorem spells_point {ws fs : List Char} {m : Nat} (hws : IsWhole ws) (hfs : IsDigits fs)
    (hr : EndsNumber rest) (hm : Decimal.magnitude ⟨digitsValue (ws ++ fs), 0 - fs.length⟩ = m) :
    Spells negative (ws ++ '.' :: fs) rest m := by
  refine ⟨⟨negative, ws, fs, 0, false⟩, ?_, rfl, rfl, hm⟩
  rw [List.append_assoc, List.cons_append]
  exact Numeral.ofChars_point negative hws hfs hr

/-- One digit, the others as its fraction, and the place as exponent. -/
theorem spells_exponent (hd : IsLeading ds) (hr : EndsNumber rest) :
    Spells negative (ds.take 1 ++ (if ds.length ≤ 1 then [] else '.' :: ds.drop 1) ++
      'e' :: (if place < 0 then '-' else '+') :: Nat.toDigits 10 place.natAbs) rest
      (placed ds place).magnitude := by
  have hfs : ∀ c ∈ ds.drop 1, c.isDigit = true := fun c hc => hd.isDigit c (List.mem_of_mem_drop hc)
  have hread := Numeral.ofChars_exponent negative place (hd.isWhole_take 0) hfs hr
  refine ⟨⟨negative, ds.take 1, ds.drop 1, place, false⟩, ?_, rfl, rfl, ?_⟩
  · simp only [List.drop_eq_nil_iff] at hread
    simpa only [List.append_assoc, List.cons_append] using hread
  · have hlen := List.length_pos_of_ne_nil hd.ne_nil
    have hexp : place - (ds.drop 1).length = place + 1 - ds.length := by
      rw [List.length_drop]
      omega
    rw [Numeral.decimal, placed, List.take_append_drop, hexp]

/-- A zero before the point, and zeros behind it. -/
theorem spells_small (hd : IsLeading ds) (hr : EndsNumber rest) (hneg : place < 0) :
    Spells negative ('0' :: '.' :: (List.replicate (-place - 1).toNat '0' ++ ds)) rest
      (placed ds place).magnitude := by
  have hfs : IsDigits (List.replicate (-place - 1).toNat '0' ++ ds) :=
    ⟨by simp [hd.ne_nil],
      fun c hc => (List.mem_append.mp hc).elim (isDigit_zeros _ c) (hd.isDigit c)⟩
  refine spells_point (isWhole_toDigits 0) hfs hr ?_
  have hvalue : digitsValue ('0' :: (List.replicate (-place - 1).toNat '0' ++ ds)) =
      digitsValue ds := digitsValue_zeros_append ((-place - 1).toNat + 1) ds
  have hexp : (0 : Int) - (List.replicate (-place - 1).toNat '0' ++ ds).length =
      place + 1 - ds.length := by
    rw [List.length_append, List.length_replicate]
    omega
  rw [Nat.toDigits_zero, List.singleton_append, hvalue, hexp, placed]

/-- Zeros up to the point, and one behind it. -/
theorem spells_whole (hd : IsLeading ds) (hr : EndsNumber rest) (hpos : 0 ≤ place)
    (hle : ds.length ≤ place.toNat + 1) :
    Spells negative (ds ++ List.replicate (place.toNat + 1 - ds.length) '0' ++ ['.', '0']) rest
      (placed ds place).magnitude := by
  refine spells_point (hd.isWhole (isDigit_zeros _)) (isWhole_toDigits 0).toIsDigits hr ?_
  have hexp : place + 1 - ds.length =
      (0 : Int) - 1 + ((place.toNat + 1 - ds.length) + 1 : Nat) := by omega
  rw [placed, hexp, ← Decimal.magnitude_mul_pow, ← digitsValue_append_zeros,
    List.replicate_succ', ← List.append_assoc]
  rfl

/-- The point among the digits. -/
theorem spells_middle (hd : IsLeading ds) (hr : EndsNumber rest) (hpos : 0 ≤ place)
    (hlt : place.toNat + 1 < ds.length) :
    Spells negative (ds.take (place.toNat + 1) ++ '.' :: ds.drop (place.toNat + 1)) rest
      (placed ds place).magnitude := by
  have hfs : IsDigits (ds.drop (place.toNat + 1)) :=
    ⟨by simpa using hlt, fun c hc => hd.isDigit c (List.mem_of_mem_drop hc)⟩
  refine spells_point (hd.isWhole_take place.toNat) hfs hr ?_
  have hexp : (0 : Int) - (ds.drop (place.toNat + 1)).length = place + 1 - ds.length := by
    rw [List.length_drop]
    omega
  rw [List.take_append_drop, hexp, placed]

/-- Every layout spells its digits at their place. -/
theorem spells_layout (hd : IsLeading ds) (hr : EndsNumber rest) :
    Spells negative (layout ds place) rest (placed ds place).magnitude := by
  rw [layout]
  split
  next => exact spells_exponent hd hr
  next =>
    split
    next hneg => exact spells_small hd hr hneg
    next hpos =>
      dsimp only
      split
      next hle => exact spells_whole hd hr (by omega) hle
      next hgt => exact spells_middle hd hr (by omega) (by omega)

end

/-- The text of a finite number without its sign. -/
def unsignedChars (d : Double) : List Char :=
  if d.isZero then ['0', '.', '0']
  else layout (trimZeros (Nat.toDigits 10 d.shortest.coefficient)) (d.shortest.order - 1)

theorem chars_eq (d : Double) :
    d.chars = if d.isNegative then '-' :: d.unsignedChars else d.unsignedChars := rfl

/-- The text of a finite number spells its magnitude. -/
theorem spells_unsignedChars {d : Double} (hd : d.isFinite = true) {negative : Bool}
    {rest : List Char} (hr : EndsNumber rest) :
    Spells negative d.unsignedChars rest d.magnitude := by
  rw [unsignedChars]
  by_cases hz : d.isZero = true
  · have hm : d.magnitude = 0 := decide_eq_true_iff.mp hz
    rw [if_pos hz, hm]
    exact spells_point (isWhole_toDigits 0) (isWhole_toDigits 0).toIsDigits hr rfl
  · have hz' : d.isZero = false := Bool.eq_false_of_not_eq_true hz
    obtain ⟨hl, k, hk, hlen⟩ := trimZeros_toDigits (coefficient_shortest_pos hd hz')
    have hm := magnitude_shortest hd hz'
    rw [if_neg hz]
    -- the digits at their place are the decimal without the zeros at its end
    have hplaced : placed (trimZeros (Nat.toDigits 10 d.shortest.coefficient))
        (d.shortest.order - 1) = ⟨digitsValue (trimZeros (Nat.toDigits 10 d.shortest.coefficient)),
          d.shortest.exponent + k⟩ := by
      rw [placed, Decimal.order, ← hlen]
      congr 1
      omega
    have hplace : (placed (trimZeros (Nat.toDigits 10 d.shortest.coefficient))
        (d.shortest.order - 1)).magnitude = d.magnitude := by
      rw [hplaced, ← Decimal.magnitude_mul_pow, hk, hm]
    exact hplace ▸ spells_layout hl hr

end Double

/-! ## Numbers in a document -/

namespace Draft

/-- A text that is read as a number starts with a digit. -/
theorem head_of_numeral {negative : Bool} {cs : List Char} {r : Numeral × List Char}
    (h : Numeral.ofChars negative cs = .ok r) : ∃ c ds, cs = c :: ds ∧ c.isDigit = true := by
  cases cs with
  | nil => cases h
  | cons c cs =>
    refine ⟨c, cs, rfl, ?_⟩
    by_contra hc
    simp [Numeral.ofChars, wholeDigits, someDigits, hc, bind, Except.bind] at h

theorem isBlank_digit {c : Char} (hc : c.isDigit = true) : isBlank c = false := by
  refine Bool.eq_false_iff.mpr fun hb => ?_
  simp only [isBlank, Bool.or_eq_true, decide_eq_true_eq] at hb
  rcases hb with ((rfl | rfl) | rfl) | rfl <;> exact absurd hc (by decide)

theorem skipBlanks_cons {c : Char} (cs : List Char) (hc : isBlank c = false) :
    skipBlanks (c :: cs) = c :: cs :=
  List.dropWhile_cons_of_neg (by rw [hc]; decide)

/-- A digit starts a number. -/
theorem valueOfChars_digit (room levels : Nat) {c : Char} (cs : List Char)
    (hc : c.isDigit = true) :
    valueOfChars room levels (c :: cs) = numberOfChars false (c :: cs) := by
  rw [valueOfChars, skipBlanks_cons cs (isBlank_digit hc)]
  split
  next h => cases h
  iterate 7 next h => cases h; exact absurd hc (by decide)
  next h => cases h; exact if_pos hc

/-- A sign and a numeral are read as its value. -/
theorem valueOfChars_numeral {negative : Bool} {cs rest : List Char} {n : Numeral}
    (h : Numeral.ofChars negative cs = .ok (n, rest)) (room levels : Nat) :
    valueOfChars room levels (if negative then '-' :: cs else cs) =
      (scalar (n.value.map .number) none, rest) := by
  have hread : numberOfChars negative cs = (scalar (n.value.map .number) none, rest) := by
    rw [numberOfChars, h]
  rw [← hread]
  cases negative with
  | true =>
    rw [if_pos rfl, valueOfChars]
    rfl
  | false =>
    obtain ⟨c, ds, rfl, hc⟩ := head_of_numeral h
    exact valueOfChars_digit room levels ds hc

end Draft

/-- A number that reads back: an integer of 64 bits, signed or not, or a finite double. -/
def Number.IsReadable : Number → Prop
  | integer i => -2 ^ 63 ≤ i ∧ i < 2 ^ 64
  | float d => d.isFinite = true

/-- A number reads back to its end. -/
theorem Draft.valueOfChars_number (room levels : Nat) {n : Number} {rest : List Char}
    (hn : n.IsReadable) (hr : EndsNumber rest) :
    valueOfChars room levels (n.chars ++ rest) = (scalar (.ok (.number n)) none, rest) := by
  cases n with
  | integer i =>
    obtain ⟨hlow, hup⟩ := hn
    have hread := Numeral.ofChars_plain (decide (i < 0)) (isWhole_toDigits i.natAbs) hr
    have hvalue : Numeral.value ⟨decide (i < 0), Nat.toDigits 10 i.natAbs, [], 0, true⟩ =
        .ok (.integer i) := by
      have h63 : Nat.pow 2 63 = 2 ^ 63 := rfl
      have h64 : Nat.pow 2 64 = 2 ^ 64 := rfl
      by_cases hi : i < 0
      · have habs : (i.natAbs : Int) = -i := Int.ofNat_natAbs_of_nonpos hi.le
        have hfits : 0 < i.natAbs ∧ i.natAbs ≤ Nat.pow 2 63 := by omega
        simp [Numeral.value, hi, hfits, habs]
      · have habs : (i.natAbs : Int) = i := Int.natAbs_of_nonneg (by omega)
        have hfits : i.natAbs < Nat.pow 2 64 := by omega
        simp [Numeral.value, hi, hfits, habs]
    have h := valueOfChars_numeral hread room levels
    rw [hvalue] at h
    simp only [decide_eq_true_eq] at h
    rw [Number.chars, intChars, apply_ite (· ++ rest)]
    exact h
  | float d =>
    obtain ⟨n, hread, hneg, hplain, hm⟩ : Double.Spells d.isNegative _ rest _ :=
      Double.spells_unsignedChars hn hr
    have hvalue : n.value = .ok (.float d) := by
      have hlt := (Double.isFinite_iff d).mp hn
      rw [← hm] at hlt
      rw [Numeral.value_of_not_plain hplain hlt, hneg, hm, Double.ofMagnitude_magnitude]
    have h := valueOfChars_numeral hread room levels
    rw [hvalue] at h
    rw [Number.chars, Double.chars_eq, apply_ite (· ++ rest)]
    exact h

end TypeGraph
