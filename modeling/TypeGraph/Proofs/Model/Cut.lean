import TypeGraph.Proofs.Json.Cut.Value
import TypeGraph.Proofs.Model.Acceptance
import TypeGraph.Proofs.Model.Readable

/-!
# Models that are cut off

What is written for a model and loses its end is never read as a model. It is refused because the
text is cut short, and for nothing else (`Model.ofText_cut`): an object is read to its end before
anything in it is looked at.
-/

namespace TypeGraph

universe u

namespace Model

/-- A text that ends before its value is cut short. -/
theorem ofText_empty {H : Type} :
    (ofText "" : Except Problem (Model H)) = .error (.fault .cutShort) := rfl

/-- The text of a model without its end, as short as it may be, is refused as cut short. -/
theorem ofText_cut {H : Type u} {G : Type} (m : Model H) (hd : m.toJson.depth ≤ maxNesting)
    {p q : String} (hp : p ++ q = m.text) (hq : q ≠ "") :
    (ofText p : Except Problem (Model G)) = .error (.fault .cutShort) := by
  have htext : m.text.toList = m.toJson.spell [] := String.toList_ofList
  have hcut : CutOff (m.toJson.spell []) p.toList := by
    refine ⟨q.toList, by simpa using hq, ?_⟩
    rw [← htext, ← hp, String.toList_append]
  obtain ⟨d, hread, hj⟩ := m.readable_toJson.valueOfChars_cut hd le_rfl le_rfl hcut
  obtain ⟨rest, hrest⟩ : ∃ rest, m.toJson.spell [] = '\x7b' :: rest :=
    Json.exists_spell_object m.members []
  rw [hrest] at hcut
  rcases hcut.cons_cases with hnil | ⟨r, hr, -⟩
  · obtain rfl : p = "" := by simpa using hnil
    exact ofText_empty
  · have hbrace : skipBlanks p.toList = '\x7b' :: r := by
      rw [hr]
      rfl
    obtain ⟨entries, flaw, tail, hobject⟩ := Draft.ofChars_brace hbrace
    obtain rfl : d = .object entries flaw := (Prod.ext_iff.mp (hread.symm.trans hobject)).1
    rcases hj with hj | ⟨v, w, hv, -⟩
    · exact ofText_of_fault hobject hj
    · cases hv

/-- An array of the literal type of what is no number, cut off behind the model of its items. -/
theorem ofText_cut_behind_items :
    let m : Model Unit := .array (.ofLiteral (.number ⟨0x7FF8000000000000⟩))
    let p := "\x7b\"kind\":\"array\",\"type\":\x7b\"kind\":\"numberLiteral\",\"value\":null\x7d"
    m.toJson.depth ≤ maxNesting ∧ p ++ "\x7d" = m.text ∧
      (ofText p : Except Problem (Model Unit)) = .error (.fault .cutShort) := by
  intro m p
  have hd : m.toJson.depth ≤ maxNesting := by decide
  have hp : p ++ "\x7d" = m.text := by rfl
  exact ⟨hd, hp, ofText_cut m hd hp (by decide)⟩

end Model

end TypeGraph
