import TypeGraph.Proofs.Model.Parts
import TypeGraph.Proofs.Model.Streaming

/-!
# A property is a model with two more fields

The text of a property is that of its value with two members in front (`Property.text_eq`). What is
read as a property is an object with one `name` and one `optional`, and what is left without them is
read as a model by itself (`Property.GivenBy`). This holds of a property on its own, of one in
memory, and of every element of `props` in a document, however deep (`Inside`):
`Property.model_with_two_fields` says all of it.
-/

namespace TypeGraph

universe u

/-! ## Writing -/

/-- The text of a property is that of its value with two members in front. -/
theorem Property.text_eq {H : Type u} (p : Property (Model H)) :
    ∃ rest : String, p.value.text = "\x7b" ++ rest ∧
      p.text = "\x7b\"name\":" ++ (Json.string p.name).write ++ ",\"optional\":" ++
        (if p.optional then "true" else "false") ++ "," ++ rest := by
  obtain ⟨kind, payload, hmembers⟩ : ∃ kind payload, p.value.members = ("kind", kind) :: payload :=
    ⟨_, _, p.value.members_eq⟩
  refine ⟨String.ofList (quote "kind" ++ ':' :: kind.spell (Json.spellMembers payload [])), ?_, ?_⟩
  · rw [Model.text, Model.toJson, hmembers]
    apply String.toList_injective
    simp only [Json.write, Json.spell, String.toList_append, String.toList_ofList]
    rfl
  · have hname : '\x7b' :: (quote "name" ++ [':']) = "\x7b\"name\":".toList := by decide
    have hoptional : ',' :: (quote "optional" ++ [':']) = ",\"optional\":".toList := by decide
    have hflag : (Scalar.boolean p.optional).chars =
        (if p.optional then "true" else "false").toList := by cases p.optional <;> rfl
    rw [text, map, members, hmembers]
    apply String.toList_injective
    simp only [Json.write, Json.spell, Json.spellMembers, String.toList_append,
      String.toList_ofList, ← hname, ← hoptional, hflag]
    simp

/-! ## Reading -/

section

variable {H : Type}

/-- An object is a property: it has one name and one flag, and the object that is left without them
is read as the value by itself. -/
structure Property.GivenBy (p : Property (Model H)) (ms : Members) : Prop where
  name : OneField "name" (· = .string p.name) ms
  optional : OneField "optional" (· = .boolean p.optional) ms
  value : ∃ rest : String, Spells rest.toList (.object (otherFields "name" "optional" ms)) ∧
    Model.ofText rest = .ok p.value

/-- A value that can be written and does not nest too deep. -/
structure Json.Sound (j : Json) : Prop where
  readable : j.Readable
  depth : j.depth ≤ maxNesting

namespace Json.Sound

theorem of_mem_parts {i j : Json} (h : j.Sound) (hi : i ∈ j.parts) : i.Sound :=
  ⟨h.readable.parts i hi, depth_parts_le (h.depth.trans (Nat.le_succ _)) i hi⟩

theorem of_fieldValues {ms : Members} (h : (Json.object ms).Sound) {name : String} {j : Json}
    (hf : fieldValues name ms = [j]) : j.Sound :=
  h.of_mem_parts (mem_parts_of_fieldValues hf)

theorem otherFields {ms : Members} (h : (Json.object ms).Sound) (first second : String) :
    (Json.object (otherFields first second ms)).Sound :=
  ⟨h.readable.otherFields first second, depth_otherFields_le h.depth first second⟩

end Json.Sound

/-- The schema of a property says the same. -/
theorem Property.givenBy_iff {p : Property (Model H)} {ms : Members} (h : (Json.object ms).Sound) :
    p.GivenBy ms ↔ (p.map Model.Fits).Fits (.object ms) := by
  have hleft := h.otherFields "name" "optional"
  constructor
  · rintro ⟨hname, hoptional, rest, hrest, hread⟩
    exact ⟨hname, hoptional, (Model.ofText_spelled_iff hrest hleft.depth _).mp hread⟩
  · rintro ⟨hname, hoptional, hvalue⟩
    have hrest : Spells (Json.object (otherFields "name" "optional" ms)).write.toList
        (.object (otherFields "name" "optional" ms)) := by
      rw [Json.write, String.toList_ofList]
      exact hleft.readable.spells
    exact ⟨hname, hoptional, _, hrest, (Model.ofText_spelled_iff hrest hleft.depth _).mpr hvalue⟩

/-- A property is read from memory as from its text. -/
theorem Property.read_iff_givenBy {levels : ℕ} (hl : levels ≤ maxNesting) {p : Property (Model H)}
    {ms : Members} (hr : (Json.object ms).Readable) (hd : (Json.object ms).depth ≤ levels) :
    Property.read Json.view (Model.ofMembers levels) (.object ms) = .ok p ↔ p.GivenBy ms := by
  have hread := Property.reads_read (P := Model.Fits (H := H))
    (fun ms hms => Model.reads_ofMembers hms) hd
  rw [hread.ok_iff, givenBy_iff ⟨hr, hd.trans hl⟩]

/-! ## Properties inside a model -/

/-- A model directly inside another one, and the members that it is read from. -/
inductive Child : Members → Model H → Members → Model H → Prop
  | member {ms ns : Members} {g : Group} {xs : List (Model H)} {o : Option H} {js : List Json}
      {n : Model H} (hf : fieldValues g.field ms = [.array js])
      (hn : (n, Json.object ns) ∈ xs.zip js) : Child ms ⟨.group g xs, o⟩ ns n
  | element {ms ns : Members} {n : Model H} {o : Option H}
      (hf : fieldValues "type" ms = [.object ns]) : Child ms ⟨.array n, o⟩ ns n
  | valueType {ms ns : Members} {s : Signature (Model H)} {o : Option H}
      (hf : fieldValues "valueType" ms = [.object ns]) : Child ms ⟨.index s, o⟩ ns s.value
  | property {ms ns : Members} {m : Model H} {js : List Json} {p : Property (Model H)}
      (hf : fieldValues "props" ms = [.array js]) (hp : (p, Json.object ns) ∈ m.shape.props.zip js) :
      Child ms m (otherFields "name" "optional" ns) p.value
  | signature {ms is ns : Members} {ps : List (Property (Model H))} {s : Signature (Model H)}
      {o : Option H} (hf : fieldValues "index" ms = [.object is])
      (hv : fieldValues "valueType" is = [.object ns]) :
      Child ms ⟨.objectWithIndex ps s, o⟩ ns s.value
  | signatureByPlace {ms ns : Members} {key : Json} {ps : List (Property (Model H))}
      {s : Signature (Model H)} {o : Option H}
      (hf : fieldValues "index" ms = [.array [key, .object ns]]) :
      Child ms ⟨.objectWithIndex ps s, o⟩ ns s.value

/-- A model anywhere inside another one, and the members that it is read from. -/
inductive Inside (ms : Members) (m : Model H) : Members → Model H → Prop
  | root : Inside ms m ms m
  | child {ns ks : Members} {n k : Model H} (h : Inside ms m ns n) (hc : Child ns n ks k) :
      Inside ms m ks k

theorem Inside.of_child {ms cs ns : Members} {m c n : Model H} (hc : Child ms m cs c)
    (h : Inside cs c ns n) : Inside ms m ns n := by
  induction h with
  | root => exact .child .root hc
  | child _ hc' ih => exact .child ih hc'

/-- The array of the properties of a model. -/
theorem Model.Fits.props {m : Model H} {ms : Members} (h : m.Fits ms)
    (hk : m.kind = .object ∨ m.kind = .objectWithIndex) :
    ∃ js, fieldValues "props" ms = [.array js] ∧
      List.Forall₂ (fun (p : Property (Model H)) j => (p.map Fits).Fits j) m.shape.props js := by
  have hfield (ps : List (Property (Model H)))
      (h : OneField "props" (IsArrayOf ((ps.map (·.map Fits)).map Property.Fits)) ms) :
      ∃ js, fieldValues "props" ms = [.array js] ∧
        List.Forall₂ (fun (p : Property (Model H)) j => (p.map Fits).Fits j) ps js := by
    obtain ⟨j, hf, hj⟩ := h
    rw [List.map_map] at hj
    obtain ⟨js, rfl, hjs⟩ := isArrayOf_map_iff.mp hj
    exact ⟨js, hf, hjs⟩
  obtain ⟨-, -, hpayload⟩ := (fits_iff m ms).mp h
  obtain ⟨shape, o⟩ := m
  cases shape with
  | object ps => exact hfield ps hpayload
  | objectWithIndex ps s => exact hfield ps hpayload.1
  | _ => rcases hk with hk | hk <;> cases hk

theorem Model.kind_of_mem_props {m : Model H} {p : Property (Model H)} (h : p ∈ m.shape.props) :
    m.kind = .object ∨ m.kind = .objectWithIndex := by
  obtain ⟨shape, o⟩ := m
  cases shape with
  | object ps => exact .inl rfl
  | objectWithIndex ps s => exact .inr rfl
  | _ => exact absurd h List.not_mem_nil

/-- What is inside a model is described by its own members. -/
theorem Child.fits {ms ns : Members} {m n : Model H} (hc : Child ms m ns n) (h : m.Fits ms) :
    n.Fits ns := by
  have hpayload := ((Model.fits_iff m ms).mp h).2.2
  cases hc with
  | member hf hn =>
    have hj := hpayload.of_eq hf
    rw [List.map_map] at hj
    obtain ⟨_, ⟨⟩, hjs⟩ := isArrayOf_map_iff.mp hj
    exact (List.forall₂_iff_zip.mp hjs).2 hn
  | element hf => exact hpayload.of_eq hf
  | valueType hf => exact hpayload.2.of_eq hf
  | property hf hp =>
    obtain ⟨js, hf', hjs⟩ := h.props (Model.kind_of_mem_props (List.of_mem_zip hp).1)
    cases hf.symm.trans hf'
    exact ((List.forall₂_iff_zip.mp hjs).2 hp).2.2
  | signature hf hv => exact (hpayload.2.of_eq hf).2.of_eq hv
  | signatureByPlace hf => exact (hpayload.2.of_eq hf).2

theorem Child.sound {ms ns : Members} {m n : Model H} (hc : Child ms m ns n)
    (h : (Json.object ms).Sound) : (Json.object ns).Sound := by
  cases hc with
  | member hf hn => exact (h.of_fieldValues hf).of_mem_parts (List.of_mem_zip hn).2
  | element hf => exact h.of_fieldValues hf
  | valueType hf => exact h.of_fieldValues hf
  | property hf hp =>
    exact ((h.of_fieldValues hf).of_mem_parts (List.of_mem_zip hp).2).otherFields _ _
  | signature hf hv => exact (h.of_fieldValues hf).of_fieldValues hv
  | signatureByPlace hf =>
    exact (h.of_fieldValues hf).of_mem_parts (List.mem_cons_of_mem _ (List.mem_singleton_self _))

/-- Every model inside another one is read from some members. -/
theorem Model.Fits.exists_child {ms : Members} {m n : Model H} (h : m.Fits ms)
    (hn : n ∈ m.children) : ∃ ns, Child ms m ns n := by
  have hpayload := ((fits_iff m ms).mp h).2.2
  have hprops (hn : n ∈ m.shape.props.map (·.value)) : ∃ ns, Child ms m ns n := by
    obtain ⟨p, hp, rfl⟩ := List.mem_map.mp hn
    obtain ⟨js, hf, hjs⟩ := h.props (kind_of_mem_props hp)
    obtain ⟨j, hzip, hj⟩ := exists_mem_zip hjs hp
    obtain ⟨ns, rfl, -⟩ := hj.exists_members
    exact ⟨_, .property hf hzip⟩
  obtain ⟨shape, o⟩ := m
  cases shape with
  | atom a => exact absurd hn List.not_mem_nil
  | literal l => exact absurd hn List.not_mem_nil
  | group g xs =>
    obtain ⟨j, hf, hj⟩ := hpayload
    rw [List.map_map] at hj
    obtain ⟨js, rfl, hjs⟩ := isArrayOf_map_iff.mp hj
    obtain ⟨j, hzip, hj⟩ := exists_mem_zip hjs hn
    obtain ⟨ns, rfl, -⟩ := IsObject.exists_members hj
    exact ⟨ns, .member hf hzip⟩
  | array e =>
    obtain rfl := List.mem_singleton.mp hn
    obtain ⟨j, hf, hj⟩ := hpayload
    obtain ⟨ns, rfl, -⟩ := hj.exists_members
    exact ⟨ns, .element hf⟩
  | index s =>
    obtain rfl := List.mem_singleton.mp hn
    obtain ⟨j, hf, hj⟩ := hpayload.2
    obtain ⟨ns, rfl, -⟩ := hj.exists_members
    exact ⟨ns, .valueType hf⟩
  | object ps => exact hprops hn
  | objectWithIndex ps s =>
    rcases List.mem_append.mp hn with hn | hn
    · exact hprops hn
    · obtain rfl := List.mem_singleton.mp hn
      obtain ⟨j, hf, hj⟩ := hpayload.2
      cases j with
      | scalar x => exact hj.elim
      | object is =>
        obtain ⟨-, i, hv, hi⟩ := hj
        obtain ⟨ns, rfl, -⟩ := hi.exists_members
        exact ⟨ns, .signature hf hv⟩
      | array js =>
        match js, hj with
        | [key, i], hj =>
          obtain ⟨ns, rfl, -⟩ := hj.2.exists_members
          exact ⟨ns, .signatureByPlace hf⟩

/-- Every model of the tree is read from some members. -/
theorem Model.Fits.exists_inside {ms : Members} {m : Model H} (h : m.Fits ms) :
    ∀ n ∈ m.preorder, ∃ ns, Inside ms m ns n := by
  induction m using induction generalizing ms with
  | mk s o ih =>
    rw [preorder_eq, List.forall_mem_cons]
    refine ⟨⟨ms, .root⟩, fun n hn => ?_⟩
    obtain ⟨c, hc, hn⟩ := List.mem_flatMap.mp hn
    obtain ⟨cs, hchild⟩ := h.exists_child hc
    obtain ⟨ns, hinside⟩ := ih c hc (hchild.fits h) n hn
    exact ⟨ns, .of_child hchild hinside⟩

/-- What is anywhere inside a model is described by its own members. -/
theorem Inside.fits {ms ns : Members} {m n : Model H} (hi : Inside ms m ns n) (h : m.Fits ms)
    (hs : (Json.object ms).Sound) : n.Fits ns ∧ (Json.object ns).Sound := by
  induction hi with
  | root => exact ⟨h, hs⟩
  | child _ hc ih => exact ⟨hc.fits ih.1, hc.sound ih.2⟩

/-- Each element of `props` in a document is the object of a property. -/
theorem Inside.props {ms ns : Members} {m n : Model H} (hi : Inside ms m ns n) (h : m.Fits ms)
    (hs : (Json.object ms).Sound) (hk : n.kind = .object ∨ n.kind = .objectWithIndex) :
    ∃ js, fieldValues "props" ns = [.array js] ∧
      List.Forall₂ (fun p j => ∃ os, j = Json.object os ∧ Property.GivenBy p os) n.shape.props js := by
  obtain ⟨hfits, hsound⟩ := hi.fits h hs
  obtain ⟨js, hf, hjs⟩ := hfits.props hk
  refine ⟨js, hf, List.forall₂_iff_zip.mpr ⟨hjs.length_eq, fun {p j} hp => ?_⟩⟩
  have hj := (List.forall₂_iff_zip.mp hjs).2 hp
  obtain ⟨os, rfl, -⟩ := hj.exists_members
  have hos := (hsound.of_fieldValues hf).of_mem_parts (List.of_mem_zip hp).2
  exact ⟨os, rfl, (Property.givenBy_iff hos).mpr hj⟩

end

/-- A property is a model with two more fields, both in writing and in reading: on its own, in
memory, and as an element of `props` anywhere in a document. -/
theorem Property.model_with_two_fields {H : Type u} {G : Type} :
    (∀ p : Property (Model H), ∃ rest : String, p.value.text = "\x7b" ++ rest ∧
      p.text = "\x7b\"name\":" ++ (Json.string p.name).write ++ ",\"optional\":" ++
        (if p.optional then "true" else "false") ++ "," ++ rest) ∧
    (∀ {text : String} {ms : Members}, Spells text.toList (.object ms) →
      (Json.object ms).depth ≤ maxNesting → ∀ p : Property (Model G),
        Property.ofText text = .ok p ↔ p.GivenBy ms) ∧
    (∀ {levels : ℕ} {ms : Members}, levels ≤ maxNesting → (Json.object ms).Readable →
      (Json.object ms).depth ≤ levels → ∀ p : Property (Model G),
        Property.read Json.view (Model.ofMembers levels) (.object ms) = .ok p ↔ p.GivenBy ms) ∧
    ∀ {text : String} {ms : Members}, Spells text.toList (.object ms) →
      (Json.object ms).depth ≤ maxNesting → ∀ m : Model G, Model.ofText text = .ok m →
        (∀ n ∈ m.preorder, ∃ ns, Inside ms m ns n) ∧
        ∀ ns n, Inside ms m ns n → n.kind = .object ∨ n.kind = .objectWithIndex →
          ∃ js, fieldValues "props" ns = [.array js] ∧
            List.Forall₂ (fun p j => ∃ os, j = Json.object os ∧ Property.GivenBy p os)
              n.shape.props js := by
  refine ⟨text_eq, fun h hd p => ?_, fun hl hr hd p => read_iff_givenBy hl hr hd,
    fun h hd m hm => ?_⟩
  · rw [ofText_spelled_iff h hd, givenBy_iff ⟨h.readable, hd⟩]
  · have hfits := (Model.ofText_spelled_iff h hd m).mp hm
    exact ⟨hfits.exists_inside, fun ns n hi => hi.props hfits ⟨h.readable, hd⟩⟩

/-- A property with its fields among the members of its value, on its own and inside an array. -/
theorem Property.model_with_two_fields_mixed :
    let text := "\x7b\"optional\":true,\"kind\":\"any\",\"name\":\"a\"\x7d"
    let document := "\x7b\"kind\":\"array\",\"type\":\x7b\"props\":[" ++ text ++
      "],\"kind\":\"object\"\x7d\x7d"
    let os : Members := [("optional", .boolean true), ("kind", .string "any"), ("name", .string "a")]
    let p : Property (Model Unit) := ⟨"a", true, .ofAtom .any⟩
    let n : Model Unit := .ofShape (.object [p])
    let ns : Members := [("props", .array [.object os]), ("kind", .string "object")]
    Property.ofText text = .ok p ∧ p.GivenBy os ∧
      Property.read Json.view (Model.ofMembers 1) (.object os) = .ok p ∧
      Model.ofText document = .ok (.array n) ∧
      ∃ js, fieldValues "props" ns = [.array js] ∧
        List.Forall₂ (fun p j => ∃ os, j = Json.object os ∧ Property.GivenBy p os) [p] js := by
  intro text document os p n ns
  let ms : Members := [("kind", .string "array"), ("type", .object ns)]
  have htext : Draft.ofChars text.toList = ((Json.object os).draft, []) := by
    dsimp only [text]
    rfl
  have hdocument : Draft.ofChars document.toList = ((Json.object ms).draft, []) := by
    simp only [document, text, String.toList_append]
    rfl
  have hos : Spells text.toList (.object os) := spells_of_reads htext
  have hms : Spells document.toList (.object ms) := spells_of_reads hdocument
  have hread : Property.ofText text = .ok p := by
    rw [ofText, readText_spelled _ hos]
    rfl
  have hmodel : Model.ofText document = .ok (.array n) := by
    rw [Model.ofText, readText_spelled _ hms]
    rfl
  obtain ⟨-, hown, hmemory, hinside⟩ := model_with_two_fields (H := Unit) (G := Unit)
  have hgiven : p.GivenBy os := (hown hos (by decide) p).mp hread
  refine ⟨hread, hgiven, ?_, hmodel, ?_⟩
  · exact (hmemory (by decide) hos.readable (by decide) p).mpr hgiven
  · exact (hinside hms (by decide) _ hmodel).2 ns n (.child .root (.element rfl)) (.inl rfl)

end TypeGraph
