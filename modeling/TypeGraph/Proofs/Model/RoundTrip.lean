import TypeGraph.Proofs.Model.Readable
import TypeGraph.Proofs.Model.Reading

/-!
# Writing and reading are inverse on the readable models

What is written for a model is readable JSON, so reading its text depends on two things alone: how
deep the text nests and whether all number literals are finite (`Model.ofText_text`). Properties
and index signatures on their own follow the same law (`Property.ofText_text`,
`Signature.ofText_text`); `roundTrip` states it for all three.
-/

namespace TypeGraph

open View

universe u

/-! ## Reading what was written -/

/-- A text that starts with a value is read as the value; then nothing but blanks may follow. -/
theorem readText_of_spells {α : Type} (read : Draft → Except Problem α) {text : String}
    {cs rest : List Char} {j : Json} (ht : text.toList = cs ++ rest) (hj : Spells cs j)
    (hr : EndsValue j rest) :
    readText read text = read j.draft >>= fun a =>
      if skipBlanks rest = [] then .ok a else .error (.fault .malformed) := by
  obtain ⟨bs, hbs, hread⟩ := hj.ofChars hr
  rw [readText, ht, hread]
  simp only [skipBlanks_append hbs]
  cases read j.draft with
  | error e => rfl
  | ok a => cases skipBlanks rest <;> rfl

/-- A text of readable JSON and nothing else is read as its draft. -/
theorem readText_write {α : Type} (read : Draft → Except Problem α) {j : Json}
    (hj : j.Readable) : readText read j.write = read j.draft := by
  have hchars : j.write.toList = j.spell [] ++ [] := by
    rw [List.append_nil]
    exact String.toList_ofList
  rw [readText_of_spells read hchars hj.spells (endsValue_nil j)]
  cases read j.draft <;> rfl

section

variable {H : Type u} {G : Type}

/-- The draft of an object is read as what it describes, if it does not nest too deep. -/
theorem Model.ofDraft_object (levels : Nat) (ms : Members) :
    (ofDraft levels (Json.object ms).draft : Except Problem (Model G)) =
      if (Json.object ms).depth ≤ levels then ofMembers maxNesting ms
      else .error (.fault .malformed) := by
  have hlayer : Draft.view.layer (Json.object ms).draft = _ := shows_draft.object ms
  rw [ofDraft, hlayer]
  show (ofFault ((Json.object ms).draft.toJson levels) >>= ofJson) = _
  rw [Json.toJson_draft]
  split
  next h =>
    rw [decide_eq_true h]
    rfl
  next h =>
    rw [decide_eq_false h]
    rfl

/-- A model is read from the draft of what was written if that does not nest too deep. -/
theorem Model.ofDraft_draft {levels : Nat} (hl : levels ≤ maxNesting) (m : Model H) :
    (ofDraft levels m.toJson.draft : Except Problem (Model G)) =
      if m.toJson.depth ≤ levels then okIf m.isFinite notFinite m.readBack
      else .error (.fault .malformed) := by
  rw [toJson, ofDraft_object]
  split
  next h => exact ofMembers_members (Nat.le_trans h hl)
  next => rfl

/-- The text of a model reads back if it does not nest too deep and all number literals are
finite. -/
theorem Model.ofText_text (m : Model H) :
    (ofText m.text : Except Problem (Model G)) =
      if m.toJson.depth ≤ maxNesting then okIf m.isFinite notFinite m.readBack
      else .error (.fault .malformed) := by
  rw [ofText, text, readText_write _ m.readable_toJson, ofDraft_draft le_rfl]

/-- The JSON value for a property. -/
def Property.toJson (p : Property (Model H)) : Json := .object (p.map Model.members).members

/-- The JSON value for an index signature. -/
def Signature.toJson (s : Signature (Model H)) : Json := .object (s.map Model.members).members

/-- A property nests as deep as its value. -/
theorem Property.depth_toJson (p : Property (Model H)) : p.toJson.depth = p.value.toJson.depth :=
  (p.map Model.members).depth_members

/-- An index signature nests one deeper than its value type. -/
theorem Signature.depth_le_iff (s : Signature (Model H)) {levels : Nat} (hl : 3 ≤ levels) :
    s.toJson.depth ≤ levels + 1 ↔ s.value.toJson.depth ≤ levels :=
  (s.map Model.members).depth_members_le_iff.trans
    (and_iff_right (s.key.depth_members_le.trans hl))

/-- The text of a property reads back if it does not nest too deep and all number literals are
finite. -/
theorem Property.ofText_text (p : Property (Model H)) :
    (Property.ofText p.text : Except Problem (Property (Model G))) =
      if p.toJson.depth ≤ maxNesting then okIf p.value.isFinite notFinite (p.map Model.readBack)
      else .error (.fault .malformed) := by
  have hr : p.toJson.Readable := Property.readable_members p.value.readable_toJson
  have hread : Property.read Draft.view (Model.ofMembers (H := G) maxNesting) p.toJson.draft = _ :=
    Property.read_members shows_draft p.value.names_members
  have hall : (p.value.members.all fun m => decide (m.2.depth ≤ maxNesting - 1)) =
      decide (p.toJson.depth ≤ maxNesting) := by
    rw [p.depth_toJson]
    exact Json.all_depth_le p.value.members (maxNesting - 1)
  rw [ofText, text, ← toJson, readText_write _ hr, hread, map, hall]
  split
  next h =>
    have hvalue : Model.ofMembers maxNesting p.value.members =
        okIf p.value.isFinite notFinite (p.value.readBack : Model G) :=
      Model.ofMembers_members (p.depth_toJson ▸ h)
    rw [decide_eq_true h, okIf_true]
    show (Model.ofMembers maxNesting p.value.members >>= fun m =>
      .ok (⟨p.name, p.optional, m⟩ : Property (Model G))) = _
    rw [hvalue]
    exact okIf_map _ _ _ _
  next h =>
    rw [decide_eq_false h]
    rfl

/-- The text of an index signature reads back if it does not nest too deep and all number literals
are finite. -/
theorem Signature.ofText_text (s : Signature (Model H)) :
    (Signature.ofText s.text : Except Problem (Signature (Model G))) =
      if s.toJson.depth ≤ maxNesting then okIf s.value.isFinite notFinite (s.map Model.readBack)
      else .error (.fault .malformed) := by
  have hr : s.toJson.Readable := Signature.readable_members s.value.readable_toJson
  have hread : Signature.read Draft.view (KeyType.ofDraft (maxNesting - 1))
      (Model.ofDraft (H := G) (maxNesting - 1)) s.toJson.draft = _ :=
    Signature.read_members shows_draft (s.map Model.members)
  have hkey : KeyType.ofDraft (maxNesting - 1) (Json.object s.key.members).draft = .ok s.key := by
    have hmodel := Model.ofDraft_draft (G := Unit) (Nat.sub_le maxNesting 1)
      (s.key.toModel : Model Unit)
    rw [Model.toJson, s.key.members_toModel, if_pos (s.key.depth_members_le.trans (by decide)),
      s.key.isFinite_toModel, okIf_true] at hmodel
    rw [KeyType.ofDraft, hmodel]
    exact s.key.read_readBack
  have hvalue : Model.ofDraft (maxNesting - 1) s.value.toJson.draft = _ :=
    Model.ofDraft_draft (G := G) (Nat.sub_le maxNesting 1) s.value
  have hdepth : s.toJson.depth ≤ maxNesting ↔ s.value.toJson.depth ≤ maxNesting - 1 :=
    s.depth_le_iff (by decide)
  rw [ofText, text, ← toJson, readText_write _ hr, hread]
  show (KeyType.ofDraft (maxNesting - 1) (Json.object s.key.members).draft >>= fun key =>
    Model.ofDraft (maxNesting - 1) s.value.toJson.draft >>= fun m =>
      .ok (⟨key, m⟩ : Signature (Model G))) = _
  rw [hkey, hvalue]
  simp only [hdepth]
  split
  next => exact okIf_map _ _ _ _
  next => rfl

end

/-! ## The law of reading back -/

/-- The law for what is read from a written text that nests `depth` deep: there is something if all
number literals are finite and the text does not nest too deep, and it is like what was written;
else the text is malformed if it nests too deep, and otherwise `null` stands in the place of a
number. -/
structure ReadsBack {α : Type} (found : Except Problem α) (depth : Nat) (finite : Prop)
    (like : α → Prop) : Prop where
  succeeds_iff : (∃ a, found = .ok a) ↔ finite ∧ depth ≤ maxNesting
  like : ∀ a, found = .ok a → like a
  deep : maxNesting < depth → found = .error (.fault .malformed)
  infinite : depth ≤ maxNesting → ¬ finite →
    found = .error (.mismatch (.wrongType (.scalar .null) .number))

theorem readsBack_of_eq {α : Type} {found : Except Problem α} {depth : Nat} {finite : Prop}
    {like : α → Prop} {c : Bool} {a : α} (hc : c = true ↔ finite) (ha : c = true → like a)
    (h : found = if depth ≤ maxNesting then okIf c notFinite a else .error (.fault .malformed)) :
    ReadsBack found depth finite like := by
  rw [← hc]
  by_cases hd : depth ≤ maxNesting
  · rw [if_pos hd] at h
    cases c with
    | true =>
      obtain rfl : found = .ok a := h
      refine ⟨by simp [hd], ?_, fun hlt => absurd hd (Nat.not_le_of_lt hlt), by simp⟩
      rintro b ⟨⟩
      exact ha rfl
    | false =>
      obtain rfl : found = .error notFinite := h
      refine ⟨by simp, nofun, fun hlt => absurd hd (Nat.not_le_of_lt hlt), fun _ _ => rfl⟩
  · rw [if_neg hd] at h
    subst h
    exact ⟨by simp [hd], nofun, fun _ => rfl, fun hle => absurd hle hd⟩

/-- Models, properties and index signatures read back from their own texts by one law; what is read
says the same, carries no origin and is written with the same text. -/
theorem roundTrip {H : Type u} {G : Type} :
    (∀ m : Model H,
      ReadsBack (Model.ofText m.text) m.toJson.depth m.FiniteNumbers fun n : Model G =>
        n.same m = true ∧ n.Detached ∧ n.text = m.text) ∧
    (∀ p : Property (Model H),
      ReadsBack (Property.ofText p.text) p.toJson.depth p.value.FiniteNumbers
        fun q : Property (Model G) =>
          q.agrees (fun n m => n.same m) p = true ∧ q.value.Detached ∧ q.text = p.text) ∧
    (∀ s : Signature (Model H),
      ReadsBack (Signature.ofText s.text) s.toJson.depth s.value.FiniteNumbers
        fun t : Signature (Model G) =>
          t.agrees (fun n m => n.same m) s = true ∧ t.value.Detached ∧ t.text = s.text) := by
  refine ⟨fun m => ?_, fun p => ?_, fun s => ?_⟩
  · refine readsBack_of_eq m.isFinite_iff (fun hm => ⟨m.readBack_same hm, m.detached_readBack, ?_⟩)
      m.ofText_text
    rw [Model.text, Model.text, Model.toJson, Model.toJson, m.members_readBack]
  · refine readsBack_of_eq p.value.isFinite_iff (fun hp => ⟨?_, ?_, ?_⟩) p.ofText_text
    · simp [Property.agrees, Property.map, Model.readBack_same hp]
    · exact p.value.detached_readBack
    · simp only [Property.text, Property.map, Model.members_readBack]
  · refine readsBack_of_eq s.value.isFinite_iff (fun hs => ⟨?_, ?_, ?_⟩) s.ofText_text
    · simp [Signature.agrees, Signature.map, Model.readBack_same hs]
    · exact s.value.detached_readBack
    · simp only [Signature.text, Signature.map, Model.members_readBack]

end TypeGraph
