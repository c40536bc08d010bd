import TypeGraph.Proofs.Model.Acceptance

/-!
# Reading from a text as from memory

A property and an index signature that stand alone are read straight from their text, and inside a
model from a value in memory. Of an object that does not nest too deep both say the same
(`Property.read_draft`, `Signature.read_draft`), so the text of such an object is read as what it
describes (`Property.ofText_spelled_iff`, `Signature.ofText_spelled_iff`).
-/

namespace TypeGraph

open View

/-! ## Parts of a text -/

namespace View

variable {J : Type} {α β γ : Type} {first second : String} {encode : Json → J}
  {readFirst : J → Except Problem α} (readFirst' : Json → Except Problem α)
  {readSecond : J → Except Problem β} (readSecond' : Json → Except Problem β)
  {readOther : String → J → Except Problem γ} (readOther' : String → Json → Except Problem γ)

/-- Readers that agree on the values of some members agree on the record of these members. -/
theorem readFields_encode {ms : Members} (hfirst : ∀ m ∈ ms, readFirst (encode m.2) = readFirst' m.2)
    (hsecond : ∀ m ∈ ms, readSecond (encode m.2) = readSecond' m.2)
    (hother : ∀ m ∈ ms, readOther m.1 (encode m.2) = readOther' m.1 m.2) (a : Option α)
    (b : Option β) (flaw : Option Fault) :
    readFields first second readFirst readSecond readOther a b
        (ms.map fun m => (m.1, encode m.2)) flaw =
      readFields first second readFirst' readSecond' readOther' a b ms flaw := by
  induction ms generalizing a b with
  | nil => rfl
  | cons m ms ih =>
    rw [List.forall_mem_cons] at hfirst hsecond hother
    simp only [List.map_cons, readFields, hfirst.1, hsecond.1, hother.1,
      ih hfirst.2 hsecond.2 hother.2]

theorem text_draft (j : Json) : Draft.view.text j.draft = Json.view.text j := by
  cases j with
  | scalar s => cases s <;> rfl
  | array js => rfl
  | object ms => rw [text, shows_draft.object]; rfl

theorem truth_draft (j : Json) : Draft.view.truth j.draft = Json.view.truth j := by
  cases j with
  | scalar s => cases s <;> rfl
  | array js => rfl
  | object ms => rw [truth, shows_draft.object]; rfl

theorem keep_draft {j : Json} (h : j.depth ≤ maxNesting - 1) : Draft.view.keep j.draft = .ok j := by
  rw [shows_draft.keep, decide_eq_true h, okIf_true]

end View

section

variable {α : Type} {H : Type}

/-- A value that does not nest too deep is read from a text as from memory. -/
theorem Model.ofDraft_eq_ofJson {levels : ℕ} {j : Json} (h : j.depth ≤ levels) :
    (ofDraft levels j.draft : Except Problem (Model H)) = ofJson j := by
  cases j with
  | scalar s => cases s <;> rfl
  | array js => rfl
  | object ms => rw [ofDraft_object, if_pos h]; rfl

theorem KeyType.ofDraft_eq {levels : ℕ} {j : Json} (h : j.depth ≤ levels) :
    KeyType.ofDraft levels j.draft =
      readObject (fun ms => Model.ofMembers (H := Unit) maxNesting ms >>= KeyType.read) j := by
  rw [ofDraft, Model.ofDraft_eq_ofJson h]
  cases j <;> rfl

/-- A property is read from a text as from memory. -/
theorem Property.read_draft (read : Members → Except Problem α) {ms : Members}
    (h : (Json.object ms).depth ≤ maxNesting) :
    Property.read Draft.view read (Json.object ms).draft =
      Property.read Json.view read (.object ms) := by
  have hparts : ∀ m ∈ ms, m.2.depth ≤ maxNesting - 1 := Json.depth_object_le_iff.mp h
  rw [Property.read, shows_draft.object]
  show Property.ofLayer Draft.view read _ none = Property.ofLayer Json.view read ms none
  rw [ofLayer, ofLayer, readFields_encode Json.view.text Json.view.truth (fun name j => .ok (name, j))
    (fun m _ => text_draft m.2) (fun m _ => truth_draft m.2)
    (fun m hm => by rw [keep_draft (hparts m hm)]; rfl)]
  rfl

/-- An index signature is read from a text as from memory. -/
theorem Signature.read_draft {ms : Members} (h : (Json.object ms).depth ≤ maxNesting) :
    Signature.read Draft.view (KeyType.ofDraft (maxNesting - 1))
        (Model.ofDraft (H := H) (maxNesting - 1)) (Json.object ms).draft =
      Signature.read Json.view
        (readObject fun ms => Model.ofMembers (H := Unit) maxNesting ms >>= KeyType.read)
        Model.ofJson (.object ms) := by
  have hparts : ∀ m ∈ ms, m.2.depth ≤ maxNesting - 1 := Json.depth_object_le_iff.mp h
  rw [Signature.read, record, shows_draft.object]
  dsimp only [bind, Except.bind]
  rw [readFields_encode _ _ (fun _ _ => .ok ())
    (fun m hm => KeyType.ofDraft_eq (hparts m hm))
    (fun m hm => Model.ofDraft_eq_ofJson (hparts m hm)) (fun m _ => shows_draft.skip m.2)]
  rfl

end

/-! ## Texts of objects -/

section

variable {H : Type} {text : String} {ms : Members}

/-- A well-formed text is read as its draft. -/
theorem readText_forms {α : Type} (read : Draft → Except Problem α) {d : Draft}
    (h : Forms text.toList d) : readText read text = read d := by
  obtain ⟨bs, hbs, hread⟩ := h.ofChars d.ends_nil
  rw [List.append_nil, List.append_nil] at hread
  rw [readText, hread]
  simp only [skipBlanks_blanks hbs]
  cases read d <;> rfl

/-- A text is read as what it spells. -/
theorem readText_spelled {α : Type} (read : Draft → Except Problem α) {j : Json}
    (h : Spells text.toList j) : readText read text = read j.draft :=
  readText_forms read h.forms

variable (h : Spells text.toList (.object ms)) (hd : (Json.object ms).depth ≤ maxNesting)

include h hd

/-- The text of an object is read as a model if its members describe it. -/
theorem Model.ofText_spelled_iff (m : Model H) : ofText text = .ok m ↔ m.Fits ms := by
  rw [ofText, readText_spelled _ h, ofDraft_object, if_pos hd, (reads_ofMembers hd).ok_iff]

/-- The text of an object is read as a property if its members describe it. -/
theorem Property.ofText_spelled_iff (p : Property (Model H)) :
    ofText text = .ok p ↔ (p.map Model.Fits).Fits (.object ms) := by
  have hread := Property.reads_read (n := maxNesting) (P := Model.Fits (H := H))
    (fun ms hms => Model.reads_ofMembers hms) hd
  rw [ofText, readText_spelled _ h, read_draft _ hd, hread.ok_iff]

/-- The text of an object is read as an index signature if its members describe it. -/
theorem Signature.ofText_spelled_iff (s : Signature (Model H)) :
    ofText text = .ok s ↔ (s.map Model.Fits).Fits (.object ms) := by
  have hkey : ∀ ms, (Json.object ms).depth ≤ maxNesting - 1 →
      Reads (Model.ofMembers (H := Unit) maxNesting ms >>= KeyType.read) fun k => k.Fits ms :=
    fun ms hms => ((Model.reads_ofMembers (hms.trans (Nat.sub_le _ _))).bind fun m _ =>
      KeyType.reads_read m).congr fun k => (KeyType.fits_iff k ms).symm
  have hread := Signature.reads_read (n := maxNesting - 1) (P := Model.Fits (H := H)) hkey
    (fun ms hms => Model.reads_ofMembers (hms.trans (Nat.sub_le maxNesting 1))) hd
  rw [ofText, readText_spelled _ h, read_draft hd]
  exact hread.ok_iff s

end

end TypeGraph
