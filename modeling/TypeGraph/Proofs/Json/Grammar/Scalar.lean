import TypeGraph.Proofs.Json.Grammar
import TypeGraph.Proofs.Json.Strings
import TypeGraph.Proofs.Json.Value

/-!
# Scalars are read by the grammar

A numeral is read where a text spells it (`SpellsNumeral.ofChars`) and nowhere else
(`Numeral.spells_of_ofChars`). So are the characters of a string, up to the closing quote as pieces
(`SpellsPieces.pieces`, `spells_of_pieces`), which are then joined (`joinPieces_eq_ok_iff`).
-/

namespace TypeGraph

/-! ## Numbers -/

theorem someDigits_eq_ok {cs ds rest : List Char} (h : someDigits cs = .ok (ds, rest)) :
    cs = ds ++ rest ∧ IsDigits ds := by
  have hsplit := List.takeWhile_append_dropWhile (p := Char.isDigit) (l := cs)
  have hdigits : ∀ c ∈ cs.takeWhile Char.isDigit, c.isDigit = true := fun c hc =>
    List.mem_takeWhile_imp hc
  cases hds : cs.takeWhile Char.isDigit with
  | nil => cases cs <;> simp [someDigits, hds] at h
  | cons d ds' =>
    obtain ⟨rfl, rfl⟩ : d :: ds' = ds ∧ cs.dropWhile Char.isDigit = rest := by
      simpa [someDigits, hds] using h
    rw [hds] at hsplit hdigits
    exact ⟨hsplit.symm, List.cons_ne_nil _ _, hdigits⟩

theorem wholeDigits_eq_ok {cs ds rest : List Char} (h : wholeDigits cs = .ok (ds, rest)) :
    cs = ds ++ rest ∧ IsWhole ds := by
  obtain ⟨⟨ds', rest'⟩, hs, h⟩ := bind_eq_ok_iff.mp h
  obtain ⟨hcs, hd⟩ := someDigits_eq_ok hs
  dsimp only at h
  split at h
  · cases h
  next hne =>
    cases h
    refine ⟨hcs, hd, fun h0 => ?_⟩
    -- a zero in front of other digits was refused
    obtain ⟨c, ds, rfl⟩ := List.exists_cons_of_ne_nil hd.ne_nil
    obtain rfl : c = '0' := Option.some.inj h0
    cases ds with
    | nil => rfl
    | cons c ds => exact absurd rfl (hne c ds)

theorem fractionDigits_eq_ok {cs rest : List Char} {fraction : Option (List Char)}
    (h : fractionDigits cs = .ok (fraction, rest)) :
    ∃ fs, cs = fs ++ rest ∧ SpellsFraction fs fraction := by
  unfold fractionDigits at h
  split at h
  · obtain ⟨⟨ds, rest'⟩, hs, ⟨⟩⟩ := bind_eq_ok_iff.mp h
    obtain ⟨rfl, hd⟩ := someDigits_eq_ok hs
    exact ⟨'.' :: ds, rfl, .some hd⟩
  · cases h
    exact ⟨[], rfl, .none⟩

/-- A sign in front of the digits of an exponent is taken off. -/
theorem exponentSign_cases (cs : List Char) :
    exponentSign cs = (false, cs) ∨
      (∃ ds, cs = '+' :: ds ∧ exponentSign cs = (false, ds)) ∨
        ∃ ds, cs = '-' :: ds ∧ exponentSign cs = (true, ds) := by
  unfold exponentSign
  split
  next ds => exact .inr (.inl ⟨ds, rfl, rfl⟩)
  next ds => exact .inr (.inr ⟨ds, rfl, rfl⟩)
  next => exact .inl rfl

theorem exponentSign_of_digits {ds : List Char} (hd : IsDigits ds) (rest : List Char) :
    exponentSign (ds ++ rest) = (false, ds ++ rest) := by
  obtain ⟨d, ds, rfl⟩ := List.exists_cons_of_ne_nil hd.ne_nil
  have hdigit := hd.isDigit d List.mem_cons_self
  rcases exponentSign_cases (d :: ds ++ rest) with hsign | ⟨es, hes, -⟩ | ⟨es, hes, -⟩
  · exact hsign
  · cases hes
    exact absurd hdigit (by decide)
  · cases hes
    exact absurd hdigit (by decide)

theorem exponentDigits_eq_ok {cs rest : List Char} {exponent : Option Int}
    (h : exponentDigits cs = .ok (exponent, rest)) :
    ∃ es, cs = es ++ rest ∧ SpellsExponent es exponent := by
  unfold exponentDigits at h
  split at h
  next c cs =>
    split at h
    next hc =>
      rcases exponentSign_cases cs with hsign | ⟨cs, rfl, hsign⟩ | ⟨cs, rfl, hsign⟩
      all_goals
        simp only [hsign] at h
        obtain ⟨⟨ds, rest'⟩, hs, ⟨⟩⟩ := bind_eq_ok_iff.mp h
        obtain ⟨rfl, hd⟩ := someDigits_eq_ok hs
      · exact ⟨c :: ds, rfl, .unsigned hc hd⟩
      · exact ⟨c :: '+' :: ds, rfl, .plus hc hd⟩
      · exact ⟨c :: '-' :: ds, rfl, .minus hc hd⟩
    next =>
      cases h
      exact ⟨[], rfl, .none⟩
  · cases h
    exact ⟨[], rfl, .none⟩

/-- A numeral that is read is spelled by what comes before the rest. -/
theorem Numeral.spells_of_ofChars {negative : Bool} {cs rest : List Char} {n : Numeral}
    (h : ofChars negative cs = .ok (n, rest)) :
    ∃ text, cs = text ++ rest ∧ SpellsNumeral (if negative then '-' :: text else text) n := by
  obtain ⟨⟨ws, cs₁⟩, hw, h⟩ := bind_eq_ok_iff.mp h
  obtain ⟨⟨fraction, cs₂⟩, hf, h⟩ := bind_eq_ok_iff.mp h
  obtain ⟨⟨exponent, cs₃⟩, he, ⟨⟩⟩ := bind_eq_ok_iff.mp h
  obtain ⟨rfl, hws⟩ := wholeDigits_eq_ok hw
  obtain ⟨fs, rfl, hfs⟩ := fractionDigits_eq_ok hf
  obtain ⟨es, rfl, hes⟩ := exponentDigits_eq_ok he
  refine ⟨ws ++ (fs ++ es), by simp only [List.append_assoc], ?_⟩
  exact SpellsNumeral.mk negative hws hfs hes

/-- A fraction is read in front of what is no part of it, and ends the digits in front of it. -/
theorem SpellsFraction.fractionDigits {fs rest : List Char} {fraction : Option (List Char)}
    (hf : SpellsFraction fs fraction) (hr : EndsDigits rest) (hp : ∀ c ∈ rest.head?, c ≠ '.') :
    EndsDigits (fs ++ rest) ∧ fractionDigits (fs ++ rest) = .ok (fraction, rest) := by
  cases hf with
  | none => exact ⟨hr, fractionDigits_none hp⟩
  | some hd => exact ⟨by simp [EndsDigits], fractionDigits_point hd hr⟩

theorem SpellsExponent.endsDigits {es rest : List Char} {exponent : Option Int}
    (he : SpellsExponent es exponent) (hr : EndsNumber rest) :
    EndsDigits (es ++ rest) ∧ ∀ c ∈ (es ++ rest).head?, c ≠ '.' := by
  have hletter {c : Char} (hc : c = 'e' ∨ c = 'E') : c.isDigit = false ∧ c ≠ '.' := by
    rcases hc with rfl | rfl <;> decide
  cases he with
  | none => exact ⟨hr.endsDigits, fun c hc => (hr c hc).2.1⟩
  | unsigned hc => simpa [EndsDigits] using hletter hc
  | plus hc => simpa [EndsDigits] using hletter hc
  | minus hc => simpa [EndsDigits] using hletter hc

theorem SpellsExponent.exponentDigits {es rest : List Char} {exponent : Option Int}
    (he : SpellsExponent es exponent) (hr : EndsNumber rest) :
    exponentDigits (es ++ rest) = .ok (exponent, rest) := by
  cases he with
  | none => exact exponentDigits_none hr
  | @unsigned c ds hc hd =>
    have hs := someDigits_append hd hr.endsDigits
    have hsign := exponentSign_of_digits hd rest
    rw [List.cons_append, TypeGraph.exponentDigits, if_pos hc]
    simp only [hsign, hs]
    rfl
  | @plus c ds hc hd =>
    have hs := someDigits_append hd hr.endsDigits
    rw [List.cons_append, List.cons_append, TypeGraph.exponentDigits, if_pos hc]
    simp only [exponentSign, hs]
    rfl
  | @minus c ds hc hd =>
    have hs := someDigits_append hd hr.endsDigits
    rw [List.cons_append, List.cons_append, TypeGraph.exponentDigits, if_pos hc]
    simp only [exponentSign, hs]
    rfl

/-- A numeral is read off a text that spells it, if it ends there. -/
theorem SpellsNumeral.ofChars {cs rest : List Char} {n : Numeral} (hn : SpellsNumeral cs n)
    (hr : EndsNumber rest) :
    ∃ text, cs = (if n.negative then '-' :: text else text) ∧
      Numeral.ofChars n.negative (text ++ rest) = .ok (n, rest) := by
  obtain ⟨negative, hw, hf, he⟩ := hn
  rename_i ws fs es fraction exponent
  obtain ⟨hends, hpoint⟩ := he.endsDigits hr
  have hexp := he.exponentDigits hr
  refine ⟨ws ++ (fs ++ es), rfl, ?_⟩
  have hread := hf.fractionDigits hends hpoint
  have hwhole := wholeDigits_append hw hread.1
  simp only [List.append_assoc]
  simp only [Numeral.ofChars, hwhole, hread.2, hexp, bind, Except.bind, pure, Except.pure]

/-! ## Strings -/

/-- The pieces up to a closing quote are spelled by what comes before it. -/
theorem spells_of_pieces {cs rest : List Char} {ps : List Piece}
    (h : pieces cs = (ps, none, rest)) :
    ∃ text, cs = text ++ '"' :: rest ∧ SpellsPieces text ps := by
  fun_induction pieces cs generalizing ps with
  | case2 cs =>
    cases h
    exact ⟨[], rfl, .nil⟩
  | case3 a b c d cs n hn ps' r hr ih =>
    cases h
    obtain ⟨text, rfl, ht⟩ := ih hr
    exact ⟨'\\' :: 'u' :: a :: b :: c :: d :: text, rfl, .unit hn ht⟩
  | case7 c cs _ _ e he ps' r hr ih =>
    cases h
    obtain ⟨text, rfl, ht⟩ := ih hr
    exact ⟨'\\' :: c :: text, rfl, .escape he ht⟩
  | case10 c cs hq _ _ hnil hcons hc ps' r hr ih =>
    cases h
    have hb : c ≠ '\\' := by
      rintro rfl
      cases cs with
      | nil => exact hnil rfl rfl
      | cons d cs => exact hcons d cs rfl rfl
    obtain ⟨text, rfl, ht⟩ := ih hr
    exact ⟨c :: text, rfl, .char hq hb hc ht⟩
  | _ => cases h

/-- The texts of pieces are read up to the closing quote behind them. -/
theorem SpellsPieces.pieces {text : List Char} {ps : List Piece} (h : SpellsPieces text ps)
    (rest : List Char) : pieces (text ++ '"' :: rest) = (ps, none, rest) := by
  induction h with
  | nil => rfl
  | char hq hb hc h ih => rw [List.cons_append, pieces_cons _ hq hb hc, ih]
  | @escape c e cs ps he h ih =>
    unfold unescape? at he
    split at he
    all_goals
      cases he <;> simp [TypeGraph.pieces, unescape?, ih]
  | unit hn h ih => simp [TypeGraph.pieces, hn, ih]

/-- The second half of a surrogate pair is no first half. -/
theorem isTrailing_of_isLeading {n : Nat} (h : isLeading n = true) : isTrailing n = false := by
  simp only [isLeading, isTrailing, Bool.and_eq_true, Bool.and_eq_false_iff, decide_eq_true_eq,
    decide_eq_false_iff_not] at h ⊢
  omega

theorem joinPieces_unit (flaw : Option Fault) {n : Nat} (ps : List Piece)
    (ht : isTrailing n = false) (hl : isLeading n = false) :
    joinPieces flaw (.unit n :: ps) = (joinPieces flaw ps).map (Char.ofNat n :: ·) := by
  rw [joinPieces.eq_def]
  simp only [ht, hl, Bool.false_eq_true, if_false]
  cases joinPieces flaw ps <;> rfl

theorem joinPieces_pair (flaw : Option Fault) {n m : Nat} (ps : List Piece)
    (hl : isLeading n = true) (ht : isTrailing m = true) :
    joinPieces flaw (.unit n :: .unit m :: ps) = (joinPieces flaw ps).map
      (Char.ofNat ((n - 0xD800) * 0x400 + (m - 0xDC00) + 0x10000) :: ·) := by
  rw [joinPieces.eq_def]
  simp only [isTrailing_of_isLeading hl, hl, ht, Bool.false_eq_true, if_false, if_true]
  cases joinPieces flaw ps <;> rfl

/-- Pieces are joined to the characters they stand for, and only where they have no flaw. -/
theorem joinPieces_eq_ok_iff {flaw : Option Fault} {ps : List Piece} {cs : List Char} :
    joinPieces flaw ps = .ok cs ↔ flaw = none ∧ Joins ps cs := by
  constructor
  · intro h
    fun_induction joinPieces flaw ps generalizing cs with
    | case1 hnone =>
      cases h
      exact ⟨hnone, .nil⟩
    | case3 c ps ih =>
      obtain ⟨ds, hds, ⟨⟩⟩ := bind_eq_ok_iff.mp h
      exact (ih hds).imp_right .char
    | case5 n ht hl m ps htm ih =>
      obtain ⟨ds, hds, ⟨⟩⟩ := bind_eq_ok_iff.mp h
      exact (ih hds).imp_right (.pair hl htm)
    | case9 n ps ht hl ih =>
      obtain ⟨ds, hds, ⟨⟩⟩ := bind_eq_ok_iff.mp h
      exact (ih hds).imp_right
        (.unit (Bool.eq_false_of_not_eq_true ht) (Bool.eq_false_of_not_eq_true hl))
    | _ => cases h
  · rintro ⟨rfl, h⟩
    induction h with
    | nil => rfl
    | char h ih =>
      rw [joinPieces, ih]
      rfl
    | unit ht hl h ih =>
      rw [joinPieces_unit none _ ht hl, ih]
      rfl
    | pair hl ht h ih =>
      rw [joinPieces_pair none _ hl ht, ih]
      rfl

end TypeGraph
