import TypeGraph.Proofs.Arena.Building

/-!
# How much a model adds to an arena

What is built for a model adds no more types and no more symbols than there are models in it
(`Arena.adds_build`), so that an arena with room for as many has handles for all of them
(`Arena.numbered_build`).
-/

namespace TypeGraph

universe u

variable {H : Type u}

namespace Arena

variable {a b c : Arena} {i j k l : ℕ}

/-- At most `i` types and `j` symbols were added. -/
def Adds (a b : Arena) (i j : ℕ) : Prop :=
  b.types.size ≤ a.types.size + i ∧ b.symbols.size ≤ a.symbols.size + j

theorem Adds.refl (a : Arena) : a.Adds a i j := ⟨Nat.le_add_right .., Nat.le_add_right ..⟩

theorem Adds.trans (hab : a.Adds b i j) (hbc : b.Adds c k l) : a.Adds c (i + k) (j + l) := by
  obtain ⟨hi, hj⟩ := hab
  obtain ⟨hk, hl⟩ := hbc
  constructor <;> omega

theorem adds_push (a : Arena) (entry : TypeEntry) : a.Adds (a.push entry).2 1 j :=
  ⟨Nat.le_of_eq (Array.size_push ..), Nat.le_add_right ..⟩

theorem adds_pushSymbol (a : Arena) (entry : SymbolEntry) : a.Adds (a.pushSymbol entry).2 0 1 :=
  ⟨Nat.le_refl _, Nat.le_of_eq (Array.size_push ..)⟩

theorem adds_mapAccum_makeProperty (ps : List (Property TypeId)) (a : Arena) :
    a.Adds (mapAccum makeProperty ps a).2 0 ps.length := by
  induction ps generalizing a with
  | nil => exact .refl a
  | cons p ps ih =>
    have hp : a.Adds (makeProperty p a).2 0 1 := by
      unfold makeProperty
      split <;> exact a.adds_pushSymbol _
    rw [mapAccum_cons, List.length_cons, Nat.add_comm ps.length]
    exact hp.trans (ih _)

theorem adds_makeAtom (plan : Plan) (a : Arena) (x : Atom) :
    a.Adds (a.makeAtom plan x).2 1 j := by
  cases x with
  | nonPrimitive =>
    rw [makeAtom]
    split
    · exact a.adds_push _
    · exact .refl a
  | typeParameter | uniqueEsSymbol | indexedAccess | conditional | substitution
  | unidentified | recursive => exact a.adds_push _
  | _ => exact .refl a

theorem adds_makeLiteral (a : Arena) (l : Literal) : a.Adds (a.makeLiteral l).2 1 j := by
  cases l with
  | string value =>
    rw [makeLiteral, stringLiteral]
    split
    · exact .refl a
    · exact a.adds_push _
  | number value =>
    rw [makeLiteral, numberLiteral]
    split
    · exact .refl a
    · exact a.adds_push _
  | boolean value => exact .refl a
  | bigint value => exact a.adds_push _

/-- A type for a layer is one more at most, and needs a symbol for a property. -/
theorem adds_make (plan : Plan) (a : Arena) (t : Shape TypeId) :
    a.Adds (a.make plan t).2 1 t.children.length := by
  have object {b c : Arena} {ps : List (Property TypeId)} (hb : b.Adds c 1 0)
      (ha : a.Adds b 0 ps.length) (hl : ps.length ≤ t.children.length) :
      a.Adds c 1 t.children.length := by
    obtain ⟨ht, hs⟩ := ha.trans hb
    constructor <;> omega
  cases t with
  | atom x => exact a.adds_makeAtom plan x
  | literal l => exact a.adds_makeLiteral l
  | group g members => cases g <;> exact a.adds_push _
  | array element => exact a.adds_push _
  | index s => exact a.adds_push _
  | object ps =>
    exact object (adds_push _ _) (adds_mapAccum_makeProperty ps a)
      (Nat.le_of_eq (List.length_map ..).symm)
  | objectWithIndex ps s =>
    obtain ⟨key, value⟩ := s
    refine object ?_ (adds_mapAccum_makeProperty ps a) ?_
    · cases key <;> exact adds_push _ _
    · rw [Shape.children, List.length_append, List.length_map]
      exact Nat.le_add_right ..

/-- What is built for a model adds no more types than it has models, and fewer symbols: one for each
model below the root at most. -/
theorem adds_build (plan : Plan) (m : Model H) (a : Arena) :
    a.Adds (m.build plan a).2 m.size (Model.sizeAll m.children) := by
  refine (Model.forest_induction
    (P := fun m => ∀ a : Arena, a.Adds (m.build plan a).2 m.size (Model.sizeAll m.children))
    -- every model of a list leaves room for the symbol of a property
    (Q := fun ms => ∀ a : Arena, ∃ j, j + ms.length = Model.sizeAll ms ∧
      a.Adds (mapAccum (Model.build plan) ms a).2 (Model.sizeAll ms) j)
    ?layer ?nil ?cons).1 m a
  case layer =>
    intro m ih a
    obtain ⟨j, hj, hc⟩ := ih a
    have hm := hc.trans (adds_make plan _ (m.shape.mapAccum (Model.build plan) a).1)
    rw [Shape.length_children (Shape.form_mapAccum ..), ← Model.children, hj] at hm
    rw [Model.build_eq, Shape.state_mapAccum, Model.size_eq]
    exact hm
  case nil => exact fun a => ⟨0, rfl, .refl a⟩
  case cons =>
    intro m ms hm hms a
    obtain ⟨j, hj, hs⟩ := hms (m.build plan a).2
    refine ⟨Model.sizeAll m.children + j, ?_, (hm a).trans hs⟩
    rw [Model.sizeAll_cons, Model.size_eq, List.length_cons]
    omega

/-- There are handles for all types and symbols if there is room for one of each for every model. -/
theorem numbered_build (plan : Plan) {m : Model H} {a : Arena}
    (ht : a.types.size + m.size ≤ UInt32.size) (hs : a.symbols.size + m.size ≤ UInt32.size) :
    (m.build plan a).2.Numbered := by
  obtain ⟨hi, hj⟩ := adds_build plan m a
  rw [Model.size_eq] at hs
  constructor <;> omega

end Arena

end TypeGraph
