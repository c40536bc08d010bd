import TypeGraph.Proofs.Json.Grammar.Value

/-!
# Texts that read back

The values that have a text are those whose numbers read back (`Json.Readable`): what is written
for such a value spells it (`Json.Readable.spells`), and any text spells a value of this kind
(`Spells.readable`).
-/

namespace TypeGraph

/-! ## Numbers -/

/-- What a numeral spells reads back. -/
theorem Numeral.isReadable_of_value {n : Numeral} {v : Number} (h : n.value = .ok v) :
    v.IsReadable := by
  have h63 : Nat.pow 2 63 = 2 ^ 63 := rfl
  have h64 : Nat.pow 2 64 = 2 ^ 64 := rfl
  have hwhole (hw : digitsValue n.whole < Nat.pow 2 64) :
      (Number.integer (digitsValue n.whole)).IsReadable := by
    constructor <;> omega
  have hnegative (hw : 0 < digitsValue n.whole ∧ digitsValue n.whole ≤ Nat.pow 2 63) :
      (Number.integer (-digitsValue n.whole)).IsReadable := by
    constructor <;> omega
  unfold value at h
  cases hd : Double.ofDecimal? n.negative n.decimal with
  | none =>
    rw [decimal] at hd
    simp only [hd] at h
    split_ifs at h with _ _ hw hw
    · cases h
      exact hnegative hw
    · cases h
      exact hwhole hw
  | some d =>
    have hfloat : (Number.float d).IsReadable := Double.isFinite_of_ofDecimal? hd
    rw [decimal] at hd
    simp only [hd] at h
    split_ifs at h with _ _ hw hw
    · cases h
      exact hfloat
    · cases h
      exact hnegative hw
    · cases h
      exact hfloat
    · cases h
      exact hwhole hw
    · cases h
      exact hfloat

/-- A text that is read as a draft without flaws spells its value. -/
theorem spells_of_reads {room levels : Nat} {cs : List Char} {j : Json}
    (h : Draft.valueOfChars room levels cs = (j.draft, [])) : Spells cs j := by
  have hj := Json.toJson_draft j.depth j
  rw [decide_eq_true le_rfl, okIf_true] at hj
  obtain ⟨text, htext, hspells⟩ := Draft.sound_valueOfChars room levels h hj
  rwa [htext, List.append_nil]

/-- A string between quotes spells itself. -/
theorem spells_quote (s : String) : Spells (quote s) (.string s) := by
  obtain ⟨text, htext, hspells⟩ := Quoted.spells_of_ofChars (Quoted.ofChars_quote s []) rfl
  obtain rfl := List.append_cancel_right htext
  exact hspells

/-- A readable scalar is written as a text that spells it. -/
theorem Scalar.spells_chars {s : Scalar} (hs : ∀ n, s = .number n → n.IsReadable) :
    Spells s.chars (.scalar s) := by
  cases s with
  | null => exact .nullWord
  | boolean b =>
    cases b with
    | true => exact .trueWord
    | false => exact .falseWord
  | number n =>
    have hend : EndsNumber [] := by simp [EndsNumber]
    have hread := Draft.valueOfChars_number 0 0 (hs n rfl) hend
    rw [List.append_nil] at hread
    exact spells_of_reads hread
  | string s => exact spells_quote s

namespace Json

/-- A value whose text reads back: all its numbers do. -/
inductive Readable : Json → Prop where
  | scalar {s : Scalar} (h : ∀ n, s = .number n → n.IsReadable) : Readable (.scalar s)
  | array {js : List Json} (h : ∀ j ∈ js, Readable j) : Readable (.array js)
  | object {ms : List (String × Json)} (h : ∀ m ∈ ms, Readable m.2) : Readable (.object ms)

/-- What follows a value is written behind it. -/
theorem spell_append (j : Json) (cs rest : List Char) : j.spell (cs ++ rest) = j.spell cs ++ rest := by
  induction j using induction generalizing cs with
  | scalar s => rw [spell, spell, List.append_assoc]
  | array js ih =>
    have hitems (js : List Json) (h : ∀ j ∈ js, ∀ cs, j.spell (cs ++ rest) = j.spell cs ++ rest) :
        spellItems js (cs ++ rest) = spellItems js cs ++ rest := by
      induction js with
      | nil => rfl
      | cons j js ihs =>
        rw [List.forall_mem_cons] at h
        rw [spellItems, spellItems, ihs h.2, h.1, List.cons_append]
    cases js with
    | nil => rfl
    | cons j js =>
      rw [List.forall_mem_cons] at ih
      rw [spell, spell, hitems js ih.2, ih.1, List.cons_append]
  | object ms ih =>
    have hmembers (ms : List (String × Json))
        (h : ∀ m ∈ ms, ∀ cs, m.2.spell (cs ++ rest) = m.2.spell cs ++ rest) :
        spellMembers ms (cs ++ rest) = spellMembers ms cs ++ rest := by
      induction ms with
      | nil => rfl
      | cons m ms ihs =>
        rw [List.forall_mem_cons] at h
        rw [spellMembers, spellMembers, ihs h.2, h.1]
        simp
    cases ms with
    | nil => rfl
    | cons m ms =>
      rw [List.forall_mem_cons] at ih
      rw [spell, spell, hmembers ms ih.2, ih.1]
      simp

theorem spell_eq (j : Json) (rest : List Char) : j.spell rest = j.spell [] ++ rest :=
  j.spell_append [] rest

/-- An array is written from its bracket on. -/
theorem exists_spell_array (js : List Json) (rest : List Char) :
    ∃ cs, (array js).spell rest = '[' :: cs := by
  cases js with
  | nil => exact ⟨_, by rw [spell]⟩
  | cons j js => exact ⟨_, by rw [spell]⟩

/-- An object is written from its brace on. -/
theorem exists_spell_object (ms : List (String × Json)) (rest : List Char) :
    ∃ cs, (object ms).spell rest = '\x7b' :: cs := by
  cases ms with
  | nil => exact ⟨_, by rw [spell]⟩
  | cons m ms => exact ⟨_, by rw [spell]⟩

/-- What is written for a value is a text that spells it, in front of what follows. -/
def Written (j : Json) (cs : List Char) : Prop := Spells cs j ∧ ∀ rest, j.spell rest = cs ++ rest

theorem exists_written_items {js : List Json} (h : ∀ j ∈ js, ∃ cs, Written j cs) :
    ∃ items : List (List Char × Json), items.map (·.2) = js ∧ (∀ i ∈ items, Spells i.1 i.2) ∧
      ∀ text rest, text ++ spellItems js rest =
        separated (text :: items.map (·.1)) ++ ']' :: rest := by
  induction js with
  | nil => exact ⟨[], rfl, nofun, fun text rest => by simp [spellItems]⟩
  | cons j js ih =>
    rw [List.forall_mem_cons] at h
    obtain ⟨cs, hspells, hcs⟩ := h.1
    obtain ⟨items, rfl, hitems, hrest⟩ := ih h.2
    refine ⟨(cs, j) :: items, rfl, List.forall_mem_cons.mpr ⟨hspells, hitems⟩, fun text rest => ?_⟩
    rw [spellItems, hcs, hrest, List.map_cons, separated_cons text (List.cons_ne_nil _ _),
      List.append_assoc, List.cons_append]

theorem exists_written_members {ms : List (String × Json)} (h : ∀ m ∈ ms, ∃ cs, Written m.2 cs) :
    ∃ members : List MemberText, members.map (·.member) = ms ∧
      (∀ m ∈ members, Spells m.nameText (.string m.name)) ∧
      (∀ m ∈ members, Spells m.valueText m.value) ∧
      ∀ text rest, text ++ spellMembers ms rest =
        separated (text :: members.map (·.text)) ++ '\x7d' :: rest := by
  induction ms with
  | nil => exact ⟨[], rfl, nofun, nofun, fun text rest => by simp [spellMembers]⟩
  | cons m ms ih =>
    rw [List.forall_mem_cons] at h
    obtain ⟨cs, hspells, hcs⟩ := h.1
    obtain ⟨members, rfl, hnames, hvalues, hrest⟩ := ih h.2
    refine ⟨⟨quote m.1, m.1, cs, m.2⟩ :: members, rfl,
      List.forall_mem_cons.mpr ⟨spells_quote m.1, hnames⟩,
      List.forall_mem_cons.mpr ⟨hspells, hvalues⟩, fun text rest => ?_⟩
    have htext : quote m.1 ++ ':' :: (cs ++ spellMembers (members.map (·.member)) rest) =
        (quote m.1 ++ ':' :: cs) ++ spellMembers (members.map (·.member)) rest := by simp
    rw [spellMembers, hcs, htext, hrest, List.map_cons, separated_cons text (List.cons_ne_nil _ _),
      List.append_assoc, List.cons_append]
    rfl

/-- What is written for a readable value spells it. -/
theorem Readable.written {j : Json} (hj : j.Readable) : ∃ cs, Written j cs := by
  induction hj with
  | @scalar s h => exact ⟨s.chars, Scalar.spells_chars h, fun rest => by rw [spell]⟩
  | @array js h ih =>
    cases js with
    | nil =>
      exact ⟨['[', ']'], .noItems (List.forall_mem_nil _), fun rest => by rw [spell]; rfl⟩
    | cons j js =>
      rw [List.forall_mem_cons] at ih
      obtain ⟨cs, hspells, hcs⟩ := ih.1
      obtain ⟨items, rfl, hitems, hrest⟩ := exists_written_items ih.2
      refine ⟨'[' :: (separated (cs :: items.map (·.1)) ++ [']']), ?_, fun rest => ?_⟩
      · exact @Spells.array ((cs, j) :: items) (List.cons_ne_nil _ _)
          (List.forall_mem_cons.mpr ⟨hspells, hitems⟩)
      · rw [spell, hcs, hrest]
        simp
  | @object ms h ih =>
    cases ms with
    | nil =>
      exact ⟨['\x7b', '\x7d'], .noMembers (List.forall_mem_nil _), fun rest => by rw [spell]; rfl⟩
    | cons m ms =>
      rw [List.forall_mem_cons] at ih
      obtain ⟨cs, hspells, hcs⟩ := ih.1
      obtain ⟨members, rfl, hnames, hvalues, hrest⟩ := exists_written_members ih.2
      refine ⟨'\x7b' :: (separated ((quote m.1 ++ ':' :: cs) :: members.map (·.text)) ++ ['\x7d']),
        ?_, fun rest => ?_⟩
      · exact @Spells.object (⟨quote m.1, m.1, cs, m.2⟩ :: members) (List.cons_ne_nil _ _)
          (List.forall_mem_cons.mpr ⟨spells_quote m.1, hnames⟩)
          (List.forall_mem_cons.mpr ⟨hspells, hvalues⟩)
      · have htext : quote m.1 ++ ':' :: (cs ++ spellMembers (members.map (·.member)) rest) =
            (quote m.1 ++ ':' :: cs) ++ spellMembers (members.map (·.member)) rest := by simp
        rw [spell, hcs, htext, hrest]
        simp

/-- What is written for a readable value spells it. -/
theorem Readable.spells {j : Json} (hj : j.Readable) : Spells (j.spell []) j := by
  obtain ⟨cs, hspells, hcs⟩ := hj.written
  rwa [hcs, List.append_nil]

end Json

/-- What a text spells is readable. -/
theorem Spells.readable {cs : List Char} {j : Json} (h : Spells cs j) : j.Readable := by
  induction h with
  | padded hb ha h ih => exact ih
  | number hn hv =>
    refine .scalar fun n hn => ?_
    cases hn
    exact Numeral.isReadable_of_value hv
  | noItems hb => exact .array nofun
  | array hne h ih => exact .array (List.forall_mem_map.mpr ih)
  | noMembers hb => exact .object nofun
  | object hne hn hv ihn ihv => exact .object (List.forall_mem_map.mpr ihv)
  | _ => exact .scalar nofun

end TypeGraph
