import TypeGraph.Proofs.Json.Value
import TypeGraph.Proofs.Model.Reading
import TypeGraph.Proofs.Model.Walk

/-!
# The kinds in a document

A walk and a document show the same models in the same order. In the document each model is an
object with a member `kind`. There are more such members: those in a key type, and the one of an
index signature inside an object. `Json.kindWords` reads all of them, in the order of the text, each
with the way to its object; `Way.isLeftOut` says which ways lead to no model.

* `Model.tells`: the other words are the names of the kinds that a walk meets;
* `Model.distinctNames_toJson`: no object has two members of one name.
-/

namespace TypeGraph

universe u

/-! ## Words and the ways to them -/

/-- The way to a value: the objects around it, innermost first, each with the name of the member
that leads on. -/
abbrev Way := List (Members × String)

/-- The word that a member gives, if it is a `kind`. -/
def kindWord? : String × Json → Option String
  | (name, .scalar (.string word)) => if name = "kind" then some word else none
  | _ => none

namespace Way

/-- Whether a way leads into a key type. -/
def isInKey (way : Way) : Bool := way.any (·.2 = "keyType")

/-- Whether a way leads to the index signature of an object. -/
def isAtIndex (way : Way) : Bool :=
  way.head?.any fun s => s.2 = "index" && s.1.any (kindWord? · = some "objectWithIndex")

/-- Whether a way leads to an object that is no model. -/
def isLeftOut (way : Way) : Bool := way.isInKey || way.isAtIndex

end Way

namespace Json

mutual

/-- The words of all members `kind`, in the order of the text, each with the way to its object. -/
def kindWords (way : Way) : Json → List (Way × String)
  | scalar _ => []
  | array js => kindWordsItems way js
  | object ms => kindWordsMembers way ms ms

/-- `kindWords` of the values of a list. -/
def kindWordsItems (way : Way) : List Json → List (Way × String)
  | [] => []
  | j :: js => kindWords way j ++ kindWordsItems way js

/-- `kindWords` of some members of an object. -/
def kindWordsMembers (way : Way) (object : Members) : Members → List (Way × String)
  | [] => []
  | (name, j) :: ms =>
    ((kindWord? (name, j)).toList.map fun word => (way, word)) ++
      kindWords ((object, name) :: way) j ++ kindWordsMembers way object ms

end

/-- The words of the members `kind` of models, in the order of the text. -/
def words (way : Way) (j : Json) : List String :=
  ((kindWords way j).filter fun w => !w.1.isLeftOut).map (·.2)

theorem words_scalar (way : Way) (s : Scalar) : words way (scalar s) = [] := rfl

theorem words_array (way : Way) (js : List Json) :
    words way (array js) = js.flatMap (words way) := by
  rw [words, kindWords]
  induction js with
  | nil => rfl
  | cons j js ih =>
    rw [kindWordsItems, List.filter_append, List.map_append, ih, List.flatMap_cons, words]

theorem words_object (way : Way) (whole : Members) :
    words way (object whole) = whole.flatMap fun m =>
      (if way.isLeftOut then [] else (kindWord? m).toList) ++ words ((whole, m.1) :: way) m.2 := by
  have members (ms : Members) :
      ((kindWordsMembers way whole ms).filter fun w => !w.1.isLeftOut).map (·.2) =
        ms.flatMap fun m => (if way.isLeftOut then [] else (kindWord? m).toList) ++
          words ((whole, m.1) :: way) m.2 := by
    induction ms with
    | nil => rfl
    | cons m ms ih =>
      rw [kindWordsMembers, List.filter_append, List.map_append, ih, List.flatMap_cons,
        List.filter_append, List.map_append, ← words, List.filter_map]
      cases h : way.isLeftOut <;> simp [Function.comp_def, h]
  rw [words, kindWords, members]

/-- Inside a key type there are no models. -/
theorem words_of_isInKey {way : Way} (hway : way.isInKey = true) (j : Json) : words way j = [] := by
  induction j using Json.induction generalizing way with
  | scalar s => rfl
  | array js ih =>
    rw [words_array, List.flatMap_eq_nil_iff]
    exact fun j hj => ih j hj hway
  | object ms ih =>
    rw [words_object, List.flatMap_eq_nil_iff]
    intro m hm
    have hinner : Way.isInKey ((ms, m.1) :: way) = true := by
      rw [Way.isInKey, List.any_cons, Bool.or_eq_true]
      exact .inr hway
    rw [ih m hm hinner, Way.isLeftOut, hway]
    rfl

end Json

namespace Way

variable {way : Way} {ms : Members} {name : String}

theorem isInKey_cons (hway : way.isInKey = false) (hkey : name ≠ "keyType") :
    isInKey ((ms, name) :: way) = false := by
  rw [isInKey] at hway
  simp [isInKey, hway, hkey]

theorem isLeftOut_index (hms : ("kind", .string "objectWithIndex") ∈ ms) :
    isLeftOut ((ms, "index") :: way) = true := by
  have hany : ms.any (kindWord? · = some "objectWithIndex") = true :=
    List.any_eq_true.mpr ⟨_, hms, rfl⟩
  rw [isLeftOut, isAtIndex, List.head?_cons, Option.any_some, hany, Bool.and_true,
    decide_eq_true rfl, Bool.or_true]

theorem isLeftOut_cons (hway : way.isInKey = false) (hkey : name ≠ "keyType")
    (hindex : name ≠ "index") : isLeftOut ((ms, name) :: way) = false := by
  rw [isLeftOut, isInKey_cons hway hkey]
  simp [isAtIndex, hindex]

end Way

open Json

/-! ## The words of a model -/

theorem Double.exists_toJson_eq (d : Double) : ∃ s, d.toJson = .scalar s := by
  rw [toJson]
  split
  · split <;> exact ⟨_, rfl⟩
  · split <;> exact ⟨_, rfl⟩

theorem kindWord?_of_ne {x : String × Json} (hx : x.1 ≠ "kind") : kindWord? x = none := by
  rcases x with ⟨name, (_ | _ | _ | _) | _ | _⟩
  case scalar.string => exact if_neg hx
  all_goals rfl

/-- What may stand in front of a model in its object: scalars under other names than `kind`. -/
def Beside (front : Members) : Prop := ∀ x ∈ front, x.1 ≠ "kind" ∧ ∃ s, x.2 = .scalar s

theorem beside_nil : Beside [] := fun _ hx => absurd hx List.not_mem_nil

/-- The object of a model gives its own word and then those of what is nested in it. -/
theorem words_kind {way : Way} {front payload whole : Members} {name : String}
    (hfront : Beside front) (hpayload : ∀ x ∈ payload, x.1 ≠ "kind")
    (hwhole : whole = front ++ ("kind", .string name) :: payload) :
    words way (.object whole) =
      (if way.isLeftOut then [] else [name]) ++
        payload.flatMap fun x => words ((whole, x.1) :: way) x.2 := by
  refine ((words_object way whole).trans (congrArg (List.flatMap _) hwhole)).trans ?_
  rw [List.flatMap_append, List.flatMap_cons, words_scalar, List.append_nil]
  have hnone : ∀ x : String × Json, x.1 ≠ "kind" →
      (if way.isLeftOut then [] else (kindWord? x).toList) = [] := by
    intro x hx
    rw [kindWord?_of_ne hx]
    exact ite_self _
  rw [List.flatMap_eq_nil_iff.mpr, List.nil_append]
  · refine congrArg _ (List.flatMap_congr fun x hx => ?_)
    rw [hnone x (hpayload x hx), List.nil_append]
  · intro x hx
    obtain ⟨hk, s, hs⟩ := hfront x hx
    rw [hnone x hk, hs, words_scalar, List.append_nil]

namespace Model

variable {H : Type u}

/-- The names of the kinds of all models in a tree. -/
def kindNames (m : Model H) : List String := m.preorder.map (·.kind.name)

theorem kindNames_eq (m : Model H) : m.kindNames = m.kind.name :: m.children.flatMap kindNames := by
  rw [kindNames, preorder_eq, List.map_cons, List.map_flatMap]
  rfl

/-- The words in the object of a model, also where other members stand in front of it. -/
def Tells (m : Model H) : Prop :=
  ∀ (way : Way) (front : Members), way.isLeftOut = false → Beside front →
    words way (.object (front ++ m.members)) = m.kindNames

theorem Tells.object {m : Model H} (hm : m.Tells) {way : Way} (hway : way.isLeftOut = false) :
    words way (.object m.members) = m.kindNames :=
  hm way [] hway beside_nil

theorem words_literal (way : Way) (l : Literal) : words way l.toJson = [] := by
  cases l with
  | number d =>
    obtain ⟨s, hs⟩ := d.exists_toJson_eq
    rw [Literal.toJson, hs, words_scalar]
  | _ => rfl

theorem words_properties {ps : List (Property (Model H))} {way : Way}
    (hps : ∀ c ∈ ps.map (·.value), c.Tells) (hway : way.isLeftOut = false) :
    words way (.array ((ps.map (·.map members)).map fun p => .object p.members)) =
      (ps.map (·.value)).flatMap kindNames := by
  rw [List.forall_mem_map] at hps
  rw [words_array, List.flatMap_map, List.flatMap_map, List.flatMap_map]
  refine List.flatMap_congr fun p hp => hps p hp way [("name", _), ("optional", _)] hway ?_
  simp [Beside]

/-- In an index signature only the model of its values counts. -/
theorem words_signature {t : Signature (Model H)} {way : Way} {whole : Members}
    (ht : t.value.Tells) (hway : way.isInKey = false) :
    [("keyType", Json.object t.key.members), ("valueType", .object t.value.members)].flatMap
      (fun x => words ((whole, x.1) :: way) x.2) = t.value.kindNames := by
  rw [List.flatMap_cons, List.flatMap_singleton, words_of_isInKey (by rfl), List.nil_append]
  exact ht.object (Way.isLeftOut_cons hway (by simp) (by simp))

/-- The word of an index signature inside an object is left out. -/
theorem words_index {t : Signature (Model H)} {way : Way} (ht : t.value.Tells)
    (hway : way.isInKey = false) (hout : way.isLeftOut = true) :
    words way (.object (t.map members).members) = t.value.kindNames := by
  refine (words_kind beside_nil ?_ rfl).trans ?_
  · simp
  · rw [hout, if_pos rfl, List.nil_append]
    exact words_signature ht hway

/-- What a layer holds besides its kind gives the words of the nested models. -/
theorem words_payload {s : Shape (Model H)} {way : Way} {whole : Members}
    (hs : ∀ c ∈ s.children, c.Tells) (hway : way.isInKey = false)
    (hwhole : ("kind", .string s.kind.name) ∈ whole) :
    (s.map members).payload.flatMap (fun x => words ((whole, x.1) :: way) x.2) =
      s.children.flatMap kindNames := by
  have plain {name : String} (hk : name ≠ "keyType") (hi : name ≠ "index") :
      Way.isLeftOut ((whole, name) :: way) = false := Way.isLeftOut_cons hway hk hi
  cases s with
  | atom a => rfl
  | literal l =>
    show List.flatMap _ [("value", l.toJson)] = []
    rw [List.flatMap_singleton, words_literal]
  | group g ms =>
    show List.flatMap _ [(g.field, Json.array ((ms.map members).map .object))] = ms.flatMap _
    rw [List.flatMap_singleton, words_array, List.flatMap_map, List.flatMap_map]
    refine List.flatMap_congr fun c hc => (hs c hc).object (plain ?_ ?_)
    · cases g <;> simp [Group.field]
    · cases g <;> simp [Group.field]
  | array c =>
    show List.flatMap _ [("type", Json.object c.members)] = List.flatMap _ [c]
    rw [List.flatMap_singleton, List.flatMap_singleton]
    exact (hs c (List.mem_singleton_self c)).object (plain (by simp) (by simp))
  | index t =>
    show _ = List.flatMap _ [t.value]
    rw [List.flatMap_singleton]
    exact words_signature (hs t.value (List.mem_singleton_self _)) hway
  | object ps =>
    show List.flatMap _ [("props", Json.array _)] = _
    rw [List.flatMap_singleton]
    exact words_properties hs (plain (by simp) (by simp))
  | objectWithIndex ps t =>
    simp only [Shape.children, List.forall_mem_append, List.forall_mem_singleton] at hs
    show List.flatMap _ [("props", Json.array _), ("index", Json.object (t.map members).members)] =
      List.flatMap _ (ps.map (·.value) ++ [t.value])
    rw [List.flatMap_cons, List.flatMap_singleton, List.flatMap_append, List.flatMap_singleton]
    exact congr_arg₂ _ (words_properties hs.1 (plain (by simp) (by simp)))
      (words_index hs.2 (Way.isInKey_cons hway (by simp)) (Way.isLeftOut_index hwhole))

theorem tells (m : Model H) : m.Tells := by
  induction m using Model.induction with
  | mk s o ih =>
    intro way front hway hfront
    obtain ⟨hkey, -⟩ := Bool.or_eq_false_iff.mp hway
    rw [members_eq, kindNames_eq]
    generalize hwhole : front ++ (s.map members).members = whole
    rw [words_kind hfront (fun x hx => (Shape.names_payload _ x hx).1) hwhole.symm, hway,
      if_neg Bool.false_ne_true, List.singleton_append, Shape.kind_map]
    refine congrArg (List.cons _) (words_payload ih hkey ?_)
    rw [← hwhole, Shape.members, Shape.kind_map]
    exact List.mem_append_right _ (List.mem_cons_self ..)

end Model

/-! ## Names in objects -/

/-- No object in a value has two members of one name. -/
inductive Json.DistinctNames : Json → Prop
  | scalar (s : Scalar) : DistinctNames (.scalar s)
  | array {js : List Json} (items : ∀ j ∈ js, DistinctNames j) : DistinctNames (.array js)
  | object {ms : Members} (names : (ms.map (·.1)).Nodup) (values : ∀ m ∈ ms, DistinctNames m.2) :
      DistinctNames (.object ms)

theorem Json.distinctNames_object {ms : Members} :
    (object ms).DistinctNames ↔ (ms.map (·.1)).Nodup ∧ ∀ m ∈ ms, m.2.DistinctNames :=
  ⟨fun | .object names values => ⟨names, values⟩, fun h => .object h.1 h.2⟩

theorem notMem_names {ms : Members} {name : String} (h : ∀ x ∈ ms, x.1 ≠ name) :
    name ∉ ms.map (·.1) := by
  simpa using fun j hj => h (name, j) hj rfl

theorem Literal.distinctNames_toJson (l : Literal) : l.toJson.DistinctNames := by
  cases l with
  | number d =>
    obtain ⟨s, hs⟩ := d.exists_toJson_eq
    rw [toJson, hs]
    exact .scalar s
  | bigint b => simp [toJson, BigIntLiteral.members, distinctNames_object, DistinctNames.scalar]
  | _ => exact .scalar _

theorem KeyType.distinctNames_members (k : KeyType) : (Json.object k.members).DistinctNames := by
  have atom (a : Atom) : (Json.object a.members).DistinctNames := by
    simp [distinctNames_object, Atom.members, DistinctNames.scalar]
  cases k with
  | string => exact atom .string
  | number => exact atom .number
  | stringOrNumber =>
    have types : ∀ j ∈ [Json.object Atom.string.members, .object Atom.number.members],
        j.DistinctNames := by simp [atom]
    rw [distinctNames_object, members]
    simp [DistinctNames.array types, DistinctNames.scalar]

theorem Property.distinctNames_members {p : Property Members}
    (hp : (Json.object p.value).DistinctNames)
    (hnames : ∀ x ∈ p.value, x.1 ≠ "name" ∧ x.1 ≠ "optional") :
    (Json.object p.members).DistinctNames := by
  rw [distinctNames_object] at hp ⊢
  obtain ⟨hnodup, hvalues⟩ := hp
  rw [members, List.map_cons, List.map_cons, List.nodup_cons, List.nodup_cons]
  simp only [List.forall_mem_cons]
  refine ⟨⟨?_, notMem_names fun x hx => (hnames x hx).2, hnodup⟩, .scalar _, .scalar _, hvalues⟩
  rw [List.mem_cons, not_or]
  exact ⟨by simp, notMem_names fun x hx => (hnames x hx).1⟩

theorem Signature.distinctNames_members {s : Signature Members}
    (hs : (Json.object s.value).DistinctNames) : (Json.object s.members).DistinctNames := by
  rw [distinctNames_object, members]
  simp [DistinctNames.scalar, s.key.distinctNames_members, hs]

theorem Shape.distinctNames_members {s : Shape Members}
    (h : ∀ a ∈ s.children,
      (Json.object a).DistinctNames ∧ ∀ x ∈ a, x.1 ≠ "name" ∧ x.1 ≠ "optional") :
    (Json.object s.members).DistinctNames := by
  have hprops {ps : List (Property Members)}
      (hp : ∀ a ∈ ps.map (·.value),
        (Json.object a).DistinctNames ∧ ∀ x ∈ a, x.1 ≠ "name" ∧ x.1 ≠ "optional") :
      (Json.array (ps.map fun p => .object p.members)).DistinctNames := by
    refine .array ?_
    rw [List.forall_mem_map] at hp ⊢
    exact fun p hps => Property.distinctNames_members (hp p hps).1 (hp p hps).2
  rw [distinctNames_object, members, List.map_cons, List.nodup_cons, List.forall_mem_cons]
  refine ⟨⟨?_, ?_⟩, .scalar _, ?_⟩
  · exact notMem_names fun x hx => (names_payload s x hx).1
  · cases s <;> simp [payload]
  · cases s with
    | atom a => simp [payload]
    | literal l => simpa [payload] using l.distinctNames_toJson
    | group g as =>
      have has : (Json.array (as.map .object)).DistinctNames :=
        .array (List.forall_mem_map.mpr fun a ha => (h a ha).1)
      simpa [payload] using has
    | array a => simpa [payload] using (h a (List.mem_singleton_self a)).1
    | index t =>
      have ht := (h t.value (List.mem_singleton_self _)).1
      simp [payload, t.key.distinctNames_members, ht]
    | object ps => simpa [payload] using hprops h
    | objectWithIndex ps t =>
      simp only [children, List.forall_mem_append, List.forall_mem_singleton] at h
      simp [payload, hprops h.1, Signature.distinctNames_members h.2.1]

namespace Model

variable {H : Type u}

theorem distinctNames_toJson (m : Model H) : m.toJson.DistinctNames := by
  induction m using Model.induction with
  | mk s o ih =>
    rw [toJson, members_eq]
    refine Shape.distinctNames_members ?_
    rw [Shape.children_map, List.forall_mem_map]
    exact fun c hc => ⟨ih c hc, c.names_members⟩

/-- A walk meets the kinds that the members `kind` of a document name, in the order of the text,
without those in key types and those of the index signatures of objects. No object in the document
has two members of one name. -/
theorem kinds_in_document (m : Model H) :
    m.kinds.map Kind.name =
        ((m.toJson.kindWords []).filter fun w => !w.1.isLeftOut).map (·.2) ∧
      m.toJson.DistinctNames := by
  refine ⟨?_, m.distinctNames_toJson⟩
  have told := m.tells.object (show Way.isLeftOut [] = false from rfl)
  rw [kinds_eq, List.map_map]
  exact told.symm

end Model

end TypeGraph
