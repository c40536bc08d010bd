import TypeGraph.Proofs.Model.Streaming

/-!
# Index signatures and `index` models have one text

An index signature is written as the object of an `index` model, also inside an `objectWithIndex`
model (`Signature.text_eq`, `Model.text_objectWithIndex`). The other way round its text is read as
a signature and as a model by different readers, of which only the second looks at the kind; where
the kind is `index` they accept the same texts and read the same of them
(`Signature.one_text_form`).
-/

namespace TypeGraph

universe u

/-- The model of an index signature. -/
def Signature.toModel {H : Type u} (s : Signature (Model H)) : Model H := .ofShape (.index s)

section

variable {H : Type u}

theorem Signature.text_eq (s : Signature (Model H)) : s.text = s.toModel.text := by
  rw [Model.text, Model.toJson, toModel, Model.members_eq]
  rfl

/-- The texts in an `objectWithIndex` model. -/
theorem Model.text_objectWithIndex (ps : List (Property (Model H))) (s : Signature (Model H))
    (o : Option H) :
    (⟨.objectWithIndex ps s, o⟩ : Model H).text =
      "\x7b\"kind\":\"objectWithIndex\",\"props\":" ++ (Json.array (ps.map Property.toJson)).write ++
        ",\"index\":" ++ s.text ++ "\x7d" := by
  have hprops : (ps.map (·.map members)).map (fun p => Json.object p.members) =
      ps.map Property.toJson := List.map_map
  have hjson : (⟨.objectWithIndex ps s, o⟩ : Model H).toJson =
      .object [("kind", .string "objectWithIndex"), ("props", .array (ps.map Property.toJson)),
        ("index", s.toJson)] := by
    rw [toJson, members_eq, ← hprops]
    rfl
  -- what stands between the texts of the parts is written out
  have hopen : '\x7b' :: (quote "kind" ++ ':' :: (quote "objectWithIndex" ++
      ',' :: (quote "props" ++ [':']))) =
        "\x7b\"kind\":\"objectWithIndex\",\"props\":".toList := by decide
  have hindex : ',' :: (quote "index" ++ [':']) = ",\"index\":".toList := by decide
  rw [text, hjson]
  apply String.toList_injective
  simp only [Json.write, Json.spell, Json.spellMembers, Scalar.chars, String.toList_append,
    String.toList_ofList, ← hopen, ← hindex, Signature.text, Signature.toJson]
  rw [Json.spell_eq _ (',' :: _), Json.spell_eq _ ['\x7d']]
  simp

end

/-! ## Reading -/

/-- The kind that a word gives is the only one. -/
theorem hasKind_iff_of_word {k l : Kind} {ms : Members}
    (h : fieldValues "kind" ms = [.string l.name]) : HasKind k ms ↔ k = l := by
  have hfits : k.Fits (.string l.name) ↔ k = l := by
    rw [Kind.Fits, ← Kind.ofName?_eq_some_iff, Kind.ofName?_name, Option.some.injEq]
    exact eq_comm
  rw [HasKind, OneField, h]
  constructor
  · rintro ⟨j, hj, hk⟩
    obtain rfl := (List.cons_eq_cons.mp hj).1
    exact hfits.mp hk
  · exact fun hk => ⟨_, rfl, hfits.mpr hk⟩

section

variable {H : Type u} {ms : Members} (hkind : fieldValues "kind" ms = [.string "index"])

include hkind

/-- What describes an index signature describes its model, where the kind is `index`. -/
theorem Signature.fits_toModel_iff (s : Signature (Model H)) :
    s.toModel.Fits ms ↔ (s.map Model.Fits).Fits (.object ms) := by
  rw [Model.fits_iff, toModel, Model.ofShape, and_iff_right rfl]
  exact and_iff_right ((hasKind_iff_of_word (l := .index) hkind).mpr rfl)

/-- Where the kind is `index`, a model is that of an index signature. -/
theorem Model.exists_signature {m : Model H} (hm : m.Fits ms) :
    ∃ s : Signature (Model H), m = s.toModel := by
  obtain ⟨ho, hk, -⟩ := (fits_iff m ms).mp hm
  rw [Shape.kind_map, hasKind_iff_of_word (l := .index) hkind] at hk
  obtain ⟨shape, origin⟩ := m
  cases shape with
  | index s =>
    cases ho
    exact ⟨s, rfl⟩
  | _ => cases hk

end

/-- An index signature, its model and the `index` of an `objectWithIndex` model are written as one
text. A text with the kind `index` is read as an index signature exactly if it is read as a model,
and then the model is that of the signature. -/
theorem Signature.one_text_form {H : Type u} {G : Type} :
    (∀ s : Signature (Model H), s.text = s.toModel.text ∧
      ∀ (ps : List (Property (Model H))) (o : Option H),
        (⟨.objectWithIndex ps s, o⟩ : Model H).text =
          "\x7b\"kind\":\"objectWithIndex\",\"props\":" ++
            (Json.array (ps.map Property.toJson)).write ++ ",\"index\":" ++ s.text ++ "\x7d") ∧
    ∀ {text : String} {ms : Members}, Spells text.toList (.object ms) →
      (Json.object ms).depth ≤ maxNesting → fieldValues "kind" ms = [.string "index"] →
        ((∃ s : Signature (Model G), Signature.ofText text = .ok s) ↔
          ∃ m : Model G, Model.ofText text = .ok m) ∧
        ∀ s : Signature (Model G), Signature.ofText text = .ok s →
          Model.ofText text = .ok s.toModel := by
  refine ⟨fun s => ⟨s.text_eq, fun ps o => Model.text_objectWithIndex ps s o⟩, ?_⟩
  intro text ms h hd hkind
  have hread (s : Signature (Model G)) :
      Signature.ofText text = .ok s ↔ Model.ofText text = .ok s.toModel := by
    rw [ofText_spelled_iff h hd, Model.ofText_spelled_iff h hd, fits_toModel_iff hkind]
  refine ⟨⟨?_, ?_⟩, fun s => (hread s).mp⟩
  · rintro ⟨s, hs⟩
    exact ⟨s.toModel, (hread s).mp hs⟩
  · rintro ⟨m, hm⟩
    obtain ⟨s, rfl⟩ := Model.exists_signature hkind ((Model.ofText_spelled_iff h hd m).mp hm)
    exact ⟨s, (hread s).mpr hm⟩

/-- A signature with its kind between the types, and one of these by its number. -/
theorem Signature.one_text_form_reordered :
    let text := "\x7b\"valueType\":\x7b\"kind\":2\x7d, \"kind\":\"index\",\"n\":[]," ++
      "\"keyType\":\x7b\"kind\":\"number\"\x7d\x7d"
    let s : Signature (Model Unit) := ⟨.number, .ofAtom .string⟩
    Signature.ofText text = .ok s ∧ Model.ofText text = .ok s.toModel := by
  intro text s
  let ms : Members := [("valueType", .object [("kind", .number (.integer 2))]),
    ("kind", .string "index"), ("n", .array []), ("keyType", .object [("kind", .string "number")])]
  have hread : Draft.ofChars text.toList = ((Json.object ms).draft, []) := by
    rw [String.toList_append]
    rfl
  have hjson : (Json.object ms).draft.toJson 2 = .ok (.object ms) := rfl
  obtain ⟨cs, htext, hcs⟩ := Draft.spells_of_ofChars hread hjson
  have hspells : Spells text.toList (.object ms) := by rwa [htext, List.append_nil]
  have hs : Signature.ofText text = .ok s := by
    rw [ofText, readText_spelled _ hspells]
    rfl
  exact ⟨hs, ((one_text_form (H := Unit)).2 hspells (by decide) rfl).2 s hs⟩

end TypeGraph
