import TypeGraph.Model.Reader
import TypeGraph.Proofs.Json.Record
import TypeGraph.Proofs.Model.Depth
import TypeGraph.Proofs.Model.ReadBack

/-!
# Models that read back

Reading what was written goes layer by layer (`Shape.ofMembers_members`) and fails in one way only,
at a number literal that is not finite and so was written as `null`. So a model that does not nest
too deep reads back if all its number literals are finite (`Model.ofMembers_members`).
-/

namespace TypeGraph

open View

universe u

/-! ## Kinds and literals -/

theorem Kind.ofName?_name (k : Kind) : ofName? k.name = some k := by
  have hall : ∀ k ∈ all, ofName? k.name = some k := by decide +kernel
  exact hall k (mem_all k)

/-- The kind in front of other members. -/
theorem Kind.ofMembers_cons (k : Kind) {ms : Members} (hms : ∀ m ∈ ms, m.1 ≠ "kind") :
    Kind.ofMembers (("kind", .string k.name) :: ms) = .ok k := by
  rw [ofMembers, readField_before hms, ofJson, read, ofName?_name]

/-- The reason why a number literal that is not finite does not read back. -/
def notFinite : Problem := .mismatch (.wrongType (.scalar .null) .number)

theorem Double.read_toJson (d : Double) :
    Json.view.double d.toJson = okIf d.isFinite notFinite d.unsignedZero := by
  rw [Double.toJson]
  cases hi : d.integer? with
  | none =>
    have hz : d.isZero = false := isZero_eq_false (by rw [hi]; exact (Option.some_ne_none 0).symm)
    rw [unsignedZero_of_ne hz]
    cases d.isFinite <;> rfl
  | some i =>
    rw [(integer?_eq_some hi).1]
    dsimp only
    split
    next =>
      rw [okIf_true, ← ofInt_integer? hi]
      rfl
    next hbig =>
      have hz : d.isZero = false := by
        refine isZero_eq_false ?_
        rintro hi'
        obtain rfl : 0 = i := Option.some.inj (hi'.symm.trans hi)
        exact hbig (Nat.zero_le _)
      rw [unsignedZero_of_ne hz]
      rfl

section

variable {J : Type} {α : Type} {v : View J} {encode : Json → J} {keeps : Json → Bool}

theorem BigIntLiteral.read_members (h : Shows v encode keeps) (b : BigIntLiteral) :
    BigIntLiteral.read v (encode (.object b.members)) = .ok b := by
  rw [read, record, h.object]
  dsimp only [bind, Except.bind, members, List.map]
  rw [readFields_before (by decide), h.truth, h.text]
  rfl

/-- A property reads back if the members of its value are kept, and its value reads back from
them. -/
theorem Property.read_members (h : Shows v encode keeps) {read : Members → Except Problem α}
    {p : Property Members} (hp : ∀ m ∈ p.value, m.1 ≠ "name" ∧ m.1 ≠ "optional") :
    Property.read v read (encode (.object p.members)) = do
      let ms ← okIf (p.value.all fun m => keeps m.2) (.fault .malformed) p.value
      return ⟨p.name, p.optional, ← read ms⟩ := by
  rw [Property.read, h.object]
  show (readFields "name" "optional" v.text v.truth (fun name j => do return (name, ← v.keep j))
    none none (("name", encode (.string p.name)) :: ("optional", encode (.boolean p.optional)) ::
      p.value.map fun m => (m.1, encode m.2)) none >>= _) = _
  rw [readFields_before (by decide), h.text, h.truth]
  show (readFields "name" "optional" v.text v.truth (fun name j => do return (name, ← v.keep j))
    (some p.name) (some p.optional) _ none >>= _) = _
  rw [h.readFields_keep hp]
  cases p.value.all fun m => keeps m.2 <;> rfl

/-- An index signature reads back if its two types do. -/
theorem Signature.read_members (h : Shows v encode keeps) {readKey : J → Except Problem KeyType}
    {read : J → Except Problem α} (s : Signature Members) :
    Signature.read v readKey read (encode (.object s.members)) = do
      let key ← readKey (encode (.object s.key.members))
      return ⟨key, ← read (encode (.object s.value))⟩ := by
  rw [Signature.read, record, h.object]
  dsimp only [bind, Except.bind, members, List.map]
  rw [readFields_behind (by decide) (by decide) (by decide) (h.skip _)]
  dsimp only [bind, Except.bind]
  cases readKey (encode (.object s.key.members)) with
  | error e => rfl
  | ok key => cases read (encode (.object s.value)) <;> rfl

end

theorem Literal.read_toJson (l : Literal) :
    Literal.read l.kind l.toJson = okIf l.isFinite notFinite l.unsigned := by
  cases l with
  | string s => rfl
  | number d =>
    rw [kind, toJson, read, d.read_toJson]
    exact okIf_map _ _ _ _
  | boolean b => rfl
  | bigint b =>
    have hb : BigIntLiteral.read Json.view (.object b.members) = .ok b :=
      BigIntLiteral.read_members shows_json b
    rw [kind, toJson, read, hb]
    rfl

/-! ## Layers -/

namespace Shape

section

variable {α : Type u} {β : Type} {f : α → Members} {c : α → Bool} {g : α → β}
  {readKey : Members → Except Problem KeyType} {read : Members → Except Problem β}

/-- What is written for a layer besides its kind has names of its own. -/
theorem names_payload (s : Shape Members) :
    ∀ m ∈ s.payload, m.1 ≠ "kind" ∧ m.1 ≠ "name" ∧ m.1 ≠ "optional" := by
  cases s with
  | atom a => simp [payload]
  | group k as => cases k <;> simp [payload, Group.field]
  | _ => simp [payload]

theorem read_property {p : Property α}
    (hread : read (f p.value) = okIf (c p.value) notFinite (g p.value))
    (hp : ∀ m ∈ f p.value, m.1 ≠ "name" ∧ m.1 ≠ "optional") :
    Property.read Json.view read (.object (p.map f).members) =
      okIf (c p.value) notFinite (p.map g) := by
  have hread' : Property.read Json.view read (id (.object (p.map f).members)) = _ :=
    Property.read_members shows_json hp
  have hall : (f p.value).all (fun _ => true) = true := by simp
  rw [id, Property.map, hall, okIf_true] at hread'
  refine hread'.trans ?_
  show (read (f p.value) >>= fun a => .ok (⟨p.name, p.optional, a⟩ : Property β)) = _
  rw [hread]
  exact okIf_map _ _ _ _

theorem read_properties {ps : List (Property α)}
    (hread : ∀ a ∈ ps.map (·.value), read (f a) = okIf (c a) notFinite (g a))
    (hp : ∀ a ∈ ps.map (·.value), ∀ m ∈ f a, m.1 ≠ "name" ∧ m.1 ≠ "optional") :
    Json.view.items (Property.read Json.view read)
        (.array ((ps.map (·.map f)).map fun p => .object p.members)) =
      okIf ((ps.map (·.value)).all c) notFinite (ps.map (·.map g)) := by
  rw [List.forall_mem_map] at hread hp
  rw [items_array, List.map_map, List.all_map]
  exact mapM_okIf fun p hps => read_property (hread p hps) (hp p hps)

theorem read_signature {s : Signature α}
    (hread : read (f s.value) = okIf (c s.value) notFinite (g s.value))
    (hkey : readKey s.key.members = .ok s.key) :
    Signature.read Json.view (readObject readKey) (readObject read) (.object (s.map f).members) =
      okIf (c s.value) notFinite (s.map g) := by
  have hread' : Signature.read Json.view (readObject readKey) (readObject read)
      (id (.object (s.map f).members)) = _ := Signature.read_members shows_json (s.map f)
  refine hread'.trans ?_
  simp only [Signature.map, id, readObject, hkey, hread]
  exact okIf_map _ _ _ _

/-- A layer reads back if what is nested in it does. -/
theorem ofMembers_members (s : Shape α)
    (hread : ∀ a ∈ s.children, read (f a) = okIf (c a) notFinite (g a))
    (hkey : ∀ k ∈ s.keys, readKey k.members = .ok k)
    (hnames : ∀ a ∈ s.children, ∀ m ∈ f a, m.1 ≠ "name" ∧ m.1 ≠ "optional") :
    Shape.ofMembers readKey read (s.map f).members =
      okIf (s.isFinite && s.children.all c) notFinite (s.map g).unsigned := by
  rw [ofMembers, members, Kind.ofMembers_cons _ fun m hm => (names_payload _ m hm).1]
  cases s with
  | atom a => rfl
  | literal l =>
    show (readField "value" (Literal.read l.kind) none [("kind", _), ("value", l.toJson)] >>=
      fun l => .ok (literal l)) = _
    rw [readField_behind (by decide), l.read_toJson, okIf_map, children, List.all_nil,
      Bool.and_true]
    rfl
  | group k as =>
    have hitems : Json.view.items (readObject read) (.array ((as.map f).map .object)) =
        okIf (as.all c) notFinite (as.map g) := by
      rw [items_array, List.map_map]
      exact mapM_okIf hread
    show (readField k.field (Json.view.items (readObject read)) none
      [("kind", _), (k.field, .array ((as.map f).map .object))] >>= fun as => .ok (group k as)) = _
    rw [readField_behind (by cases k <;> decide)]
    exact (congrArg (· >>= _) hitems).trans (okIf_map _ _ _ _)
  | array a =>
    show (readField "type" (readObject read) none [("kind", _), ("type", .object (f a))] >>=
      fun a => .ok (array a)) = _
    rw [readField_behind (by decide), children, List.all_cons, List.all_nil, Bool.and_true]
    exact (congrArg (· >>= _) (hread a (List.mem_singleton_self a))).trans (okIf_map _ _ _ _)
  | index t =>
    have hkey' := hkey t.key (List.mem_singleton_self _)
    have hvalue := hread t.value (List.mem_singleton_self _)
    show (readFields "keyType" "valueType" (readObject readKey) (readObject read)
      (fun _ _ => .ok ()) none none [("kind", _), ("keyType", .object t.key.members),
        ("valueType", .object (f t.value))] none >>= fun a => .ok (index ⟨a.1, a.2.1⟩)) = _
    rw [readFields_behind (by decide) (by decide) (by decide) rfl, children, List.all_cons,
      List.all_nil, Bool.and_true]
    simp only [readObject, hkey', hvalue]
    cases c t.value <;> rfl
  | object ps =>
    show (readField "props" (Json.view.items (Property.read Json.view read)) none
      [("kind", _), ("props", .array _)] >>= fun ps => .ok (object ps)) = _
    rw [readField_behind (by decide)]
    exact (congrArg (· >>= _) (read_properties hread hnames)).trans (okIf_map _ _ _ _)
  | objectWithIndex ps t =>
    simp only [children, List.forall_mem_append, List.forall_mem_singleton] at hread hnames
    have hps := read_properties hread.1 hnames.1
    have ht := read_signature hread.2 (hkey t.key (List.mem_singleton_self _))
    show (readFields "props" "index" (Json.view.items (Property.read Json.view read))
      (Signature.read Json.view (readObject readKey) (readObject read))
      (fun _ _ => .ok ()) none none [("kind", _), ("props", .array _),
        ("index", .object (t.map f).members)] none >>= fun a => .ok (objectWithIndex a.1 a.2.1)) = _
    rw [readFields_behind (by decide) (by decide) (by decide) rfl, children, List.all_append,
      List.all_cons, List.all_nil, Bool.and_true, hps, ht]
    cases (ps.map (·.value)).all c <;> cases c t.value <;> rfl

end

end Shape

/-! ## Models -/

/-- What is written for a model cannot be taken for what is written for a property. -/
theorem Model.names_members {H : Type u} (m : Model H) :
    ∀ x ∈ m.members, x.1 ≠ "name" ∧ x.1 ≠ "optional" := by
  rw [members_eq, Shape.members, List.forall_mem_cons]
  exact ⟨by simp, fun x hx => (Shape.names_payload _ x hx).2⟩

/-- The model of a key type is written as the key type. -/
theorem KeyType.members_toModel {H : Type u} (k : KeyType) :
    (k.toModel : Model H).members = k.members := by
  cases k <;> rfl

theorem KeyType.isFinite_toModel {H : Type u} (k : KeyType) :
    (k.toModel : Model H).isFinite = true := by
  cases k <;> rfl

theorem KeyType.read_readBack {H : Type u} {G : Type} (k : KeyType) :
    KeyType.read ((k.toModel : Model H).readBack : Model G) = .ok k := by
  cases k <;> rfl

/-- A model that does not nest too deep reads back if all its number literals are finite. -/
theorem Model.ofMembers_members {H : Type u} {G : Type} {levels : Nat} {m : Model H}
    (hm : m.toJson.depth ≤ levels) :
    (ofMembers levels m.members : Except Problem (Model G)) =
      okIf m.isFinite notFinite m.readBack := by
  induction levels generalizing m with
  | zero => exact absurd hm (Nat.not_succ_le_zero _)
  | succ levels ih =>
    rw [toJson, members_eq] at hm
    obtain ⟨hchildren, hkeys⟩ := Shape.depth_children_le hm
    rw [Shape.children_map, List.forall_mem_map] at hchildren
    rw [Shape.keys_map] at hkeys
    have hread : ∀ a ∈ m.shape.children, ofMembers levels a.members =
        okIf a.isFinite notFinite (a.readBack : Model G) := fun a ha => ih (hchildren a ha)
    have hkey : ∀ k ∈ m.shape.keys,
        (ofMembers levels k.members >>= KeyType.read (H := G)) = .ok k := fun k hk => by
      have hkread := ih (m := (k.toModel : Model H))
      rw [toJson, k.members_toModel] at hkread
      rw [hkread (hkeys k hk), k.isFinite_toModel]
      exact k.read_readBack
    have hshape :
        Shape.ofMembers (fun ms => ofMembers levels ms >>= KeyType.read (H := G)) _ _ = _ :=
      Shape.ofMembers_members m.shape hread hkey fun a _ => a.names_members
    rw [members_eq, ofMembers, isFinite_eq, readBack_eq]
    exact (congrArg (· >>= fun s => .ok (ofShape s)) hshape).trans (okIf_map _ _ _ _)

end TypeGraph
