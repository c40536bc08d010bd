import TypeGraph.Proofs.Arena.Layer
import TypeGraph.Proofs.Model.Walk

/-!
# Models built in an arena

`Model.build` makes a type for a model with the builders of an arena, children before parents. What
it leaves behind is said by `Arena.Stands`: the type has the layer of the model, and the types in it
were made before and stand for the children (`Arena.stands_build`).
-/

namespace TypeGraph

universe u v

variable {H : Type u}

/-- What is left open when a model is built. -/
structure Plan where
  /-- whether `nonPrimitive` gets a new type with its flag, not the one from the start -/
  flagsNonPrimitive : Bool
  /-- what number keys lead to where string keys lead to a type as well -/
  numberIndex : Arena → TypeId → TypeId

namespace Arena

/-- The type for an atom: one from the start for a keyword, else a new one with the flag for it. An
atom without a flag gets a type without flags. -/
def makeAtom (plan : Plan) (a : Arena) : Atom → TypeId × Arena
  | .any => (.ofNumber 0, a)
  | .unknown => (.ofNumber 1, a)
  | .string => (.ofNumber 2, a)
  | .number => (.ofNumber 3, a)
  | .boolean => (.ofNumber 4, a)
  | .bigint => (.ofNumber 5, a)
  | .esSymbol => (.ofNumber 6, a)
  | .void => (.ofNumber 7, a)
  | .undefined => (.ofNumber 8, a)
  | .null => (.ofNumber 9, a)
  | .never => (.ofNumber 10, a)
  | .nonPrimitive =>
    if plan.flagsNonPrimitive then a.intrinsic (.of [.nonPrimitive]) else (.ofNumber 11, a)
  | .typeParameter => a.typeParameter
  | .uniqueEsSymbol => a.uniqueSymbol
  | .indexedAccess => a.intrinsic (.of [.indexedAccess])
  | .conditional => a.intrinsic (.of [.conditional])
  | .substitution => a.intrinsic (.of [.substitution])
  | .unidentified | .recursive => a.intrinsic .empty

/-- The type of a literal. -/
def makeLiteral (a : Arena) : Literal → TypeId × Arena
  | .string value => a.stringLiteral value
  | .number value => a.numberLiteral value
  | .boolean value => (booleanLiteral value, a)
  | .bigint value => a.bigintLiteral value

/-- A type with a list of types. -/
def makeGroup (a : Arena) (members : List TypeId) : Group → TypeId × Arena
  | .enum => a.enumUnion members
  | .enumLiteral => a.enumLiteralUnion members
  | .union => a.union members
  | .intersection => a.intersection members
  | .tuple => a.tuple members

/-- The symbol of a property. -/
def makeProperty (p : Property TypeId) (a : Arena) : SymbolId × Arena :=
  if p.optional then a.optionalProperty p.name p.value else a.property p.name p.value

/-- An object type with an index signature. -/
def makeIndexed (plan : Plan) (a : Arena) (symbols : List SymbolId) (s : Signature TypeId) :
    TypeId × Arena :=
  match s.key with
  | .string => a.objectWithIndex symbols (some s.value) none
  | .number => a.objectWithIndex symbols none (some s.value)
  | .stringOrNumber =>
    a.objectWithIndex symbols (some s.value) (some (plan.numberIndex a s.value))

/-- A type with a layer. There is no builder for `index`, for which nothing is known of the type. -/
def make (plan : Plan) (a : Arena) : Shape TypeId → TypeId × Arena
  | .atom x => a.makeAtom plan x
  | .literal l => a.makeLiteral l
  | .group g members => a.makeGroup members g
  | .array element => a.array element
  | .index _ => a.reserve
  | .object ps =>
    let (symbols, a) := mapAccum makeProperty ps a
    a.object symbols
  | .objectWithIndex ps s =>
    let (symbols, a) := mapAccum makeProperty ps a
    a.makeIndexed plan symbols s

end Arena

/-- A type for a model, made after the types for its children. -/
def Model.build (plan : Plan) : Model H → Arena → TypeId × Arena :=
  fold fun _ s a =>
    let (t, a) := s.mapAccum (fun make a => make a) a
    a.make plan t

theorem Model.build_eq (plan : Plan) (m : Model H) (a : Arena) :
    m.build plan a =
      (m.shape.mapAccum (build plan) a).2.make plan (m.shape.mapAccum (build plan) a).1 := by
  rw [build, fold_eq, Shape.mapAccum_map]

/-- Whether there is a builder for the layer. A tuple needs a slot. -/
def Shape.hasBuilder {α : Type u} : Shape α → Bool
  | atom .recursive | index _ | group .tuple [] => false
  | _ => true

theorem Shape.hasBuilder_map {α : Type u} {β : Type v} (f : α → β) (s : Shape α) :
    (s.map f).hasBuilder = s.hasBuilder := by
  cases s with
  | atom a => cases a <;> rfl
  | group g members => cases g <;> cases members <;> rfl
  | _ => rfl

theorem Shape.hasBuilder_of_kind {α : Type u} {s : Shape α} (hi : s.kind ≠ .index)
    (hr : s.kind ≠ .atom .recursive) (ht : s.kind = .group .tuple → s.children ≠ []) :
    s.hasBuilder := by
  cases s with
  | atom a =>
    cases a with
    | recursive => exact absurd rfl hr
    | _ => rfl
  | group g members =>
    cases members with
    | nil =>
      cases g with
      | tuple => exact absurd rfl (ht rfl)
      | _ => rfl
    | cons => cases g <;> rfl
  | index => exact absurd rfl hi
  | _ => rfl

namespace Arena

variable {a b : Arena}

/-- A call gave a handle for a type with a layer. The type is a new one, or there are none in it. -/
structure Makes (a : Arena) (made : TypeId × Arena) (t : Shape TypeId) : Prop where
  grows : a.Grows made.2
  shows : ∃ n entry, made.1 = .ofNumber n ∧ made.2.types[n]? = some entry ∧ made.2.Shows entry t ∧
    (t.children ≠ [] → a.types.size ≤ n)

theorem makes_push {entry : TypeEntry} {t : Shape TypeId} (h : (a.push entry).2.Shows entry t) :
    a.Makes (a.push entry) t where
  grows := a.grows_push entry
  shows := ⟨_, entry, rfl, a.types_push entry, h, fun _ => Nat.le_refl _⟩

theorem makes_of_made {made : TypeId × Arena} {entry : TypeEntry} {t : Shape TypeId}
    (hg : a.Grows made.2) (hm : made.2.Made made.1 entry) (hs : made.2.Shows entry t)
    (hc : t.children = []) : a.Makes made t where
  grows := hg
  shows := by
    obtain ⟨n, hn, he⟩ := hm
    exact ⟨n, entry, hn, he, hs, fun h => absurd hc h⟩

theorem makes_makeAtom (plan : Plan) (ha : new.Grows a) {x : Atom} (hx : x ≠ .recursive) :
    a.Makes (a.makeAtom plan x) (.atom x) := by
  have keyword {n : ℕ} {entry : TypeEntry} (hn : new.types[n]? = some entry)
      (hf : entry.flags = .of x.flags) : a.Makes (.ofNumber n, a) (.atom x) :=
    makes_of_made (.refl a) ⟨n, rfl, ha.types hn⟩ ⟨hx, hf⟩ rfl
  have intrinsic {flags : TypeFlags} (hf : flags = .of x.flags) :
      a.Makes (a.intrinsic flags) (.atom x) := makes_push ⟨hx, hf⟩
  cases x with
  | nonPrimitive =>
    rw [makeAtom]
    split
    · exact intrinsic rfl
    · exact keyword rfl rfl
  | recursive => exact absurd rfl hx
  | typeParameter | uniqueEsSymbol | indexedAccess | conditional | substitution | unidentified =>
    exact intrinsic rfl
  | _ => exact keyword rfl rfl

theorem makes_makeLiteral (ha : new.Grows a) (l : Literal) :
    a.Makes (a.makeLiteral l) (.literal l) := by
  have hi := ha.interned interned_new
  cases l with
  | string value => exact makes_of_made (a.grows_stringLiteral _) (made_stringLiteral hi _) rfl rfl
  | number value => exact makes_of_made (a.grows_numberLiteral _) (made_numberLiteral hi _) rfl rfl
  | boolean value =>
    cases value with
    | false => exact makes_of_made (.refl a) ⟨13, rfl, ha.types rfl⟩ rfl rfl
    | true => exact makes_of_made (.refl a) ⟨12, rfl, ha.types rfl⟩ rfl rfl
  | bigint value => exact makes_push rfl

theorem makes_makeGroup {g : Group} {members : List TypeId}
    (h : (Shape.group g members).hasBuilder) :
    a.Makes (a.makeGroup members g) (.group g members) := by
  cases g with
  | tuple =>
    cases members with
    | nil => cases h
    | cons slot slots => exact makes_push ⟨List.cons_ne_nil _ _, rfl⟩
  | _ => exact makes_push rfl

theorem grows_makeProperty (p : Property TypeId) (a : Arena) : a.Grows (makeProperty p a).2 := by
  unfold makeProperty
  split <;> exact a.grows_pushSymbol _

theorem declares_makeProperty (p : Property TypeId) (a : Arena) :
    (makeProperty p a).2.Declares (makeProperty p a).1 p := by
  obtain ⟨name, optional, value⟩ := p
  cases optional <;> exact ⟨_, rfl, a.symbols_pushSymbol _⟩

/-- Symbols that are made one after the other stand for their properties. -/
theorem mapAccum_makeProperty (ps : List (Property TypeId)) (a : Arena) :
    a.Grows (mapAccum makeProperty ps a).2 ∧
      (mapAccum makeProperty ps a).1.Forall₂ (mapAccum makeProperty ps a).2.Declares ps := by
  induction ps generalizing a with
  | nil => exact ⟨.refl a, .nil⟩
  | cons p ps ih =>
    obtain ⟨hg, hps⟩ := ih (makeProperty p a).2
    obtain ⟨n, hn, hs⟩ := declares_makeProperty p a
    exact ⟨(grows_makeProperty p a).trans hg, .cons ⟨n, hn, hg.symbols hs⟩ hps⟩

/-- Other calls may come before the one that makes the type. -/
theorem Makes.of_grows {made : TypeId × Arena} {t : Shape TypeId} (hg : a.Grows b)
    (h : b.Makes made t) : a.Makes made t where
  grows := hg.trans h.grows
  shows := by
    obtain ⟨n, entry, hn, he, ht, hc⟩ := h.shows
    exact ⟨n, entry, hn, he, ht, fun hne => Nat.le_trans hg.size_le (hc hne)⟩

theorem makes_make (plan : Plan) (ha : new.Grows a) {t : Shape TypeId} (ht : t.hasBuilder) :
    a.Makes (a.make plan t) t := by
  cases t with
  | atom x => exact makes_makeAtom plan ha fun hx => by rw [hx] at ht; cases ht
  | literal l => exact makes_makeLiteral ha l
  | group g members => exact makes_makeGroup ht
  | array element => exact makes_push rfl
  | index s => cases ht
  | object ps =>
    obtain ⟨hg, hps⟩ := mapAccum_makeProperty ps a
    exact .of_grows hg (makes_push ⟨_, rfl, hps⟩)
  | objectWithIndex ps s =>
    obtain ⟨hg, hps⟩ := mapAccum_makeProperty ps a
    obtain ⟨key, value⟩ := s
    refine .of_grows hg ?_
    cases key with
    | string => exact makes_push ⟨_, _, _, rfl, hps, rfl, rfl⟩
    | number => exact makes_push ⟨_, _, _, rfl, hps, rfl, rfl⟩
    | stringOrNumber => exact makes_push ⟨_, _, _, rfl, hps, rfl, rfl⟩

/-! ## Models and their types -/

/-- The type with a number has the layer of a model, and the types in it stand for the children.
They were made before. -/
def Stands (a : Arena) : Model H → ℕ → Prop :=
  Model.fold fun _ s n => ∃ entry t ns, a.types[n]? = some entry ∧ a.Shows entry t ∧
    t.form = s.form ∧ t.children = ns.map .ofNumber ∧
      s.children.Forall₂ (fun stands k => stands k ∧ k < n) ns

theorem stands_iff {m : Model H} {n : ℕ} :
    a.Stands m n ↔ ∃ entry t ns, a.types[n]? = some entry ∧ a.Shows entry t ∧
      t.form = m.shape.form ∧ t.children = ns.map .ofNumber ∧
        m.children.Forall₂ (fun c k => a.Stands c k ∧ k < n) ns := by
  rw [Stands, Model.fold_eq]
  simp only [Shape.form_map, Shape.children_map, List.forall₂_map_left_iff]
  rfl

theorem Stands.lt_size {m : Model H} {n : ℕ} (h : a.Stands m n) : n < a.types.size := by
  obtain ⟨entry, -, -, he, -⟩ := stands_iff.mp h
  exact (Array.getElem?_eq_some_iff.mp he).1

theorem Stands.grows {m : Model H} {n : ℕ} (h : a.Stands m n) (hg : a.Grows b) : b.Stands m n := by
  induction m using Model.induction generalizing n with
  | mk s o ih =>
    obtain ⟨entry, t, ns, he, ht, hf, hc, hs⟩ := stands_iff.mp h
    refine stands_iff.mpr ⟨entry, t, ns, hg.types he, ht.grows hg, hf, hc, ?_⟩
    refine ((List.forall₂_and_left _ _).mpr ⟨ih, hs⟩).imp ?_
    rintro c k ⟨ih, hk, hlt⟩
    exact ⟨ih hk, hlt⟩

/-- A type for a layer stands for a model if the types in it stand for the children. -/
theorem stands_make (plan : Plan) {m : Model H} (hm : m.shape.hasBuilder) {t : Shape TypeId}
    {ns : List ℕ} (ha : new.Grows a) (hf : t.form = m.shape.form)
    (hc : t.children = ns.map .ofNumber) (hs : m.children.Forall₂ a.Stands ns) :
    a.Grows (a.make plan t).2 ∧
      ∃ n, (a.make plan t).1 = .ofNumber n ∧ (a.make plan t).2.Stands m n := by
  have ht : t.hasBuilder = true := by
    rw [← Shape.hasBuilder_map (fun _ => ()), ← Shape.form, hf, Shape.form, Shape.hasBuilder_map,
      hm]
  obtain ⟨hg, n, entry, hn, he, hshows, hle⟩ := makes_make plan ha ht
  refine ⟨hg, n, hn, stands_iff.mpr ⟨entry, t, ns, he, hshows, hf, hc, ?_⟩⟩
  -- a type with others in it is a new one, and they were there before it
  cases ns with
  | nil =>
    rw [List.forall₂_nil_right_iff] at hs ⊢
    exact hs
  | cons k ks =>
    have hle := hle (by rw [hc]; exact List.cons_ne_nil _ _)
    exact hs.imp fun c k hk => ⟨hk.grows hg, Nat.lt_of_lt_of_le hk.lt_size hle⟩

/-- What is built for a model stands for it, in an arena that has grown. -/
theorem stands_build (plan : Plan) {m : Model H} (hm : ∀ x ∈ m.preorder, x.shape.hasBuilder)
    (ha : new.Grows a) :
    a.Grows (m.build plan a).2 ∧
      ∃ n, (m.build plan a).1 = .ofNumber n ∧ (m.build plan a).2.Stands m n := by
  refine (Model.forest_induction
    (P := fun m => (∀ x ∈ m.preorder, x.shape.hasBuilder) → ∀ a, new.Grows a →
      a.Grows (m.build plan a).2 ∧
        ∃ n, (m.build plan a).1 = .ofNumber n ∧ (m.build plan a).2.Stands m n)
    (Q := fun ms => (∀ x ∈ ms.flatMap Model.preorder, x.shape.hasBuilder) → ∀ a, new.Grows a →
      a.Grows (mapAccum (Model.build plan) ms a).2 ∧
        ∃ ns : List ℕ, (mapAccum (Model.build plan) ms a).1 = ns.map .ofNumber ∧
          ms.Forall₂ (mapAccum (Model.build plan) ms a).2.Stands ns)
    ?layer ?nil ?cons).1 m hm a ha
  case layer =>
    intro m ih hm a ha
    rw [Model.preorder_eq, List.forall_mem_cons] at hm
    obtain ⟨hg, ns, hns, hs⟩ := ih hm.2 a ha
    rw [Model.build_eq, Shape.state_mapAccum]
    obtain ⟨hg', hn⟩ := stands_make plan hm.1 (ha.trans hg) (Shape.form_mapAccum ..)
      ((Shape.children_mapAccum ..).trans hns) hs
    exact ⟨hg.trans hg', hn⟩
  case nil => exact fun _ a _ => ⟨.refl a, [], rfl, .nil⟩
  case cons =>
    intro m ms hm hms hx a ha
    rw [List.flatMap_cons, List.forall_mem_append] at hx
    obtain ⟨hg, n, hn, hs⟩ := hm hx.1 a ha
    obtain ⟨hg', ns, hns, hss⟩ := hms hx.2 _ (ha.trans hg)
    rw [mapAccum_cons]
    exact ⟨hg.trans hg', n :: ns, by rw [hn, hns, List.map_cons], .cons (hs.grows hg') hss⟩

end Arena

end TypeGraph
