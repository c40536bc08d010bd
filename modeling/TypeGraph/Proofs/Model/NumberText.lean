import TypeGraph.Proofs.Double.Value
import TypeGraph.Proofs.Integer
import TypeGraph.Proofs.Model.KindWords
import TypeGraph.Proofs.Model.Streaming

/-!
# Texts of number literals

A double is written as an integer if its value is one that is safe, as a text with a point or an
exponent if it has another value (`Double.isFractional_chars`), and as `null` if it has none. So the
text says which it is: an integer spells the value itself, and no other text spells an integer
(`Double.written_exactly`).
-/

namespace TypeGraph

universe u

theorem View.double_draft (j : Json) : Draft.view.double j.draft = Json.view.double j := by
  cases j with
  | scalar s =>
    cases s with
    | number n => cases n <;> rfl
    | _ => rfl
  | array js => rfl
  | object ms => rw [double, shows_draft.object]; rfl

namespace Double

/-! ## Points and exponents -/

/-- A text with a point or an exponent. -/
def IsFractional (cs : List Char) : Prop := '.' ∈ cs ∨ 'e' ∈ cs ∨ 'E' ∈ cs

theorem isFractional_layout (digits : List Char) (place : ℤ) :
    IsFractional (layout digits place) := by
  rw [IsFractional, layout]
  split
  · simp
  split
  · simp
  · dsimp only
    split <;> simp

theorem isFractional_chars (d : Double) : IsFractional d.chars := by
  have hunsigned : IsFractional d.unsignedChars := by
    rw [unsignedChars]
    split
    · simp [IsFractional]
    · exact isFractional_layout ..
  rw [chars_eq]
  split
  · simpa [IsFractional] using hunsigned
  · exact hunsigned

/-- The text of an integer has no point and no exponent. -/
theorem IsFractional.not_spellsInteger {cs : List Char} (h : IsFractional cs) (i : ℤ) :
    ¬ SpellsInteger cs i := by
  intro hi
  rcases h with h | h | h <;> exact absurd (hi.mem_cases _ h) (by decide)

/-! ## Writing -/

theorem toJson_of_safe {d : Double} {i : ℤ} (hv : d.value? = some (i : ℚ))
    (hi : i.natAbs ≤ maxSafeInteger) : d.toJson = .number (.integer i) := by
  rw [toJson, integer?_eq_some_iff.mpr hv]
  exact if_pos hi

theorem toJson_of_not_safe {d : Double} {q : ℚ} (hv : d.value? = some q)
    (hq : ∀ i : ℤ, q = i → maxSafeInteger < i.natAbs) : d.toJson = .number (.float d) := by
  rw [toJson]
  cases hi : d.integer? with
  | none =>
    have hf : d.isFinite = true := by
      by_contra hf
      rw [value?_eq, if_neg hf] at hv
      cases hv
    exact if_pos hf
  | some i =>
    have hlt := hq i (Option.some.inj (hv.symm.trans (integer?_eq_some_iff.mp hi)))
    exact if_neg (Nat.not_le.mpr hlt)

theorem toJson_of_none {d : Double} (hv : d.value? = none) : d.toJson = .null := by
  have hf : ¬ d.isFinite = true := by
    intro hf
    rw [value?_eq, if_pos hf] at hv
    cases hv
  rw [toJson, integer?, if_neg (fun h => hf h.1)]
  exact if_neg hf

/-- A double with a value is read from its text, and both zeros as the same one. -/
theorem read_write {d : Double} (hd : d.isFinite = true) :
    readText Draft.view.double d.toJson.write = .ok d.unsignedZero := by
  rw [readText_write _ d.readable_toJson, View.double_draft, read_toJson, hd, okIf_true]

theorem toList_write_number (n : Number) : (Json.number n).write.toList = n.chars := by
  rw [Json.write, String.toList_ofList]
  exact List.append_nil _

/-- The text of a number literal, around that of its number. -/
theorem text_literal {H : Type u} (d : Double) (origin : Option H) :
    (⟨.literal (.number d), origin⟩ : Model H).text =
      "\x7b\"kind\":\"numberLiteral\",\"value\":" ++ d.toJson.write ++ "\x7d" := by
  have hmembers : (⟨.literal (.number d), origin⟩ : Model H).members =
      [("kind", .string "numberLiteral"), ("value", d.toJson)] := rfl
  obtain ⟨s, hs⟩ := d.exists_toJson_eq
  refine String.toList_injective ?_
  rw [Model.text, Model.toJson, hmembers]
  simp only [hs, Json.write, Json.spell, Json.spellMembers, String.toList_append,
    String.toList_ofList]
  simp [Scalar.chars, quote, escape]

/-- A number literal is written as an integer if its value is a safe one, and then the text spells
that value and is read as a double equal to it. Any other value is written with a point or an
exponent, so no integer is spelled, and what has no value is written as `null`. -/
theorem written_exactly {H : Type u} (d : Double) (origin : Option H) :
    let text := d.toJson.write
    (⟨.literal (.number d), origin⟩ : Model H).text =
        "\x7b\"kind\":\"numberLiteral\",\"value\":" ++ text ++ "\x7d" ∧
      (∀ i : ℤ, d.value? = some (i : ℚ) → |i| ≤ 2 ^ 53 - 1 →
        SpellsInteger text.toList i ∧ (i = 0 → text = "0") ∧
          ∃ e, readText Draft.view.double text = .ok e ∧ e.same d = true) ∧
      (∀ q : ℚ, d.value? = some q → (∀ i : ℤ, q = i → 2 ^ 53 - 1 < |i|) →
        IsFractional text.toList ∧ ∀ i, ¬ SpellsInteger text.toList i) ∧
      (d.value? = none → text = "null") := by
  intro text
  have hmax : maxSafeInteger = 2 ^ 53 - 1 := rfl
  have htext {n : Number} (hn : d.toJson = .number n) : text.toList = n.chars := by
    rw [← toList_write_number, ← hn]
  refine ⟨text_literal d origin, fun i hv hi => ?_, fun q hv hq => ?_, fun hv => ?_⟩
  · rw [Int.abs_eq_natAbs] at hi
    have hjson := toJson_of_safe hv (by omega)
    have hf := (integer?_eq_some (integer?_eq_some_iff.mpr hv)).1
    refine ⟨?_, ?_, d.unsignedZero, read_write hf, unsignedZero_same hf⟩
    · rw [htext hjson]
      exact spellsInteger_intChars i
    · rintro rfl
      exact String.toList_injective (htext hjson)
  · have hjson := toJson_of_not_safe hv fun i hi => by
      have hlt := hq i hi
      rw [Int.abs_eq_natAbs] at hlt
      omega
    have hfrac : IsFractional text.toList := by
      rw [htext hjson]
      exact isFractional_chars d
    exact ⟨hfrac, hfrac.not_spellsInteger⟩
  · show d.toJson.write = _
    rw [toJson_of_none hv]
    decide

/-- A zero with a sign, a half and a NaN. -/
theorem written_exactly_halves :
    (∃ e, readText Draft.view.double (toJson ⟨0x8000000000000000⟩).write = .ok e ∧
        e.same ⟨0x8000000000000000⟩ = true) ∧
      (toJson ⟨0x8000000000000000⟩).write = "0" ∧
      (∀ i, ¬ SpellsInteger (toJson ⟨0x3FE0000000000000⟩).write.toList i) ∧
      (toJson ⟨0x7FF8000000000000⟩).write = "null" := by
  have hzero : value? ⟨0x8000000000000000⟩ = some ((0 : ℤ) : ℚ) :=
    integer?_eq_some_iff.mp (by decide +kernel)
  have hhalf : value? ⟨0x3FE0000000000000⟩ = some (1 / 2) := by
    have he : exponentField ⟨0x3FE0000000000000⟩ = 1022 := by decide
    have hf : fractionField ⟨0x3FE0000000000000⟩ = 0 := by decide
    have hs : sign ⟨0x3FE0000000000000⟩ = 1 := if_pos (by decide)
    rw [value?, he, hf, hs, if_neg (by decide), if_neg (by decide)]
    norm_num
  have hnan : value? ⟨0x7FF8000000000000⟩ = none := if_pos (by decide)
  have hwhole (i : ℤ) (hi : (1 / 2 : ℚ) = i) : (2 ^ 53 - 1 : ℤ) < |i| := by
    have htwo : (1 : ℚ) = (2 * i : ℤ) := by
      rw [Int.cast_mul, ← hi]
      norm_num
    have : (1 : ℤ) = 2 * i := by exact_mod_cast htwo
    omega
  obtain ⟨-, hsafe, -, -⟩ := written_exactly (H := ℕ) ⟨0x8000000000000000⟩ none
  obtain ⟨-, htext, hread⟩ := hsafe 0 hzero (by decide)
  obtain ⟨-, -, hother, -⟩ := written_exactly (H := ℕ) ⟨0x3FE0000000000000⟩ none
  obtain ⟨-, -, -, hnone⟩ := written_exactly (H := ℕ) ⟨0x7FF8000000000000⟩ none
  exact ⟨hread, htext rfl, (hother _ hhalf hwhole).2, hnone hnan⟩

end Double

end TypeGraph
