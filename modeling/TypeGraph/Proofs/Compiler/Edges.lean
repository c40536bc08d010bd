import TypeGraph.Proofs.Compiler.Places
import TypeGraph.Proofs.Engine.Layer

/-!
# Edges of a compiled model

Where models keep their origins, the models nested in one are made from the types that the engine
answers for it, one by one and in order (`Engine.EdgesOf`). This holds for every model of a
compilation (`compile_edges`), no matter which limits cut it short: a type that was refused still
has its leaf.
-/

namespace TypeGraph

universe u v

variable {H : Type u} {S : Type v}

namespace Engine

/-- The properties of an object type: name, `optional` flag and the origin of the value. -/
def originProps (e : Engine H S) (k : H) : List (Property (Option H)) :=
  (e.properties k).map fun s =>
    ⟨e.symbolName s, (e.symbolFlags s).has .optional, some (e.declaredType s)⟩

/-- A layer, with origins in the place of the models nested in it, has the edges of a type: its
members, its type arguments, or its properties and what its index queries answer. -/
def EdgesOf (e : Engine H S) (k : H) : Shape (Option H) → Prop
  | .atom _ | .literal _ => True
  | .group .tuple slots => slots = (e.typeArguments k).map some ∧ slots ≠ []
  | .group _ members => members = (e.memberTypes k).map some
  | .array element => element.isSome ∧ element = (e.typeArguments k).head?
  | .object props => props = e.originProps k ∧ e.stringIndex k = none ∧ e.numberIndex k = none
  | .objectWithIndex props signature =>
    props = e.originProps k ∧
      match e.stringIndex k, e.numberIndex k with
      | some value, some _ => signature = ⟨.stringOrNumber, some value⟩
      | some value, none => signature = ⟨.string, some value⟩
      | none, some value => signature = ⟨.number, some value⟩
      | none, none => False
  | .index _ => False

variable {e : Engine H S} {k : H}

theorem edgesOf_group {g : Group} (hg : g ≠ .tuple) :
    e.EdgesOf k (.group g ((e.memberTypes k).map some)) := by
  cases g with
  | tuple => exact absurd rfl hg
  | _ => exact rfl

/-- The layer that the rules give for a type has its edges. -/
theorem edgesOf_classify (e : Engine H S) (k : H) : e.EdgesOf k ((e.classify k).map some) := by
  have hp : ((e.properties k).map e.property).map (·.map some) = e.originProps k := List.map_map ..
  have hl := e.layerOf_classify k
  generalize e.classify k = layer at hl
  cases hl with
  | atom a => exact trivial
  | literal hl => exact trivial
  | members hg => exact edgesOf_group hg
  | slots hn => exact ⟨rfl, mt List.map_eq_nil_iff.mp hn⟩
  | element hk =>
    refine ⟨rfl, ?_⟩
    rw [hk]
    rfl
  | object hs => exact ⟨hp, signature?_eq_none hs⟩
  | @objectWithIndex s hs =>
    refine ⟨hp, ?_⟩
    obtain ⟨key, value⟩ := s
    obtain ⟨rfl, hv, hn⟩ | ⟨rfl, hv, hn⟩ | ⟨rfl, hv, hn⟩ := signature?_eq_some hs
    · obtain ⟨w, hw⟩ := Option.isSome_iff_exists.mp hn
      rw [hv, hw]
      rfl
    · rw [hv, hn]
      rfl
    · rw [hv, hn]
      rfl

end Engine

variable [DecidableEq H]

/-- Every model of a compilation has an origin, that of the root is the compiled type, and each has
the edges that the engine answers for its origin. -/
theorem compile_edges (o : Options) (e : Engine H S) (h : H) (hr : o.recordOrigin = true) :
    (o.compile e h).1.origin = some h ∧
      ∀ m ∈ (o.compile e h).1.preorder, ∃ k, m.origin = some k ∧
        e.EdgesOf k (m.shape.map (·.origin)) := by
  have leaf {k : H} {m : Model H} {a : Atom} (hs : m.shape = .atom a) :
      e.EdgesOf k (m.shape.map (·.origin)) := by
    rw [hs]
    exact trivial
  refine ⟨?_, fun m hm => ?_⟩
  · rw [o.compile_model, Model.origin_keepFirst, e.origin_unfoldTo, hr]
    rfl
  · rw [← Model.map_model_places] at hm
    obtain ⟨p, hp, rfl⟩ := List.mem_map.mp hm
    obtain ⟨i, hi⟩ := List.mem_iff_getElem?.mp hp
    obtain ⟨ks, k, -, hk, hc⟩ := o.compile_cases e h hi
    rw [hr] at hk hc
    refine ⟨k, hk, ?_⟩
    obtain ⟨hs, -⟩ | ⟨-, hs⟩ | ⟨-, hs, -⟩ | ⟨-, hs⟩ := hc
    · exact leaf hs
    · exact leaf hs
    · exact leaf hs
    · rw [hs]
      exact e.edgesOf_classify k

/-- An engine of three types that lead to each other: an object `0` with a property and two index
signatures, a tuple `1` and an array `2`. -/
def Engine.threeCycle : Engine (Fin 3) Bool where
  typeFlags _ := .of [.object]
  objectFlags h := if h = 0 then .empty else .of [.reference]
  targetFlags h := if h = 1 then .of [.tuple] else .empty
  typeArguments h := if h = 1 then [0, 2] else if h = 2 then [1, 0] else []
  typeSymbol h := if h = 2 then some true else none
  stringLiteral _ := none
  numberLiteral _ := none
  booleanLiteral _ := none
  bigintLiteral _ := none
  memberTypes _ := []
  properties h := if h = 0 then [false] else []
  symbolName s := if s then arraySymbolName else "p"
  symbolFlags s := if s then .empty else .of [.optional]
  declaredType _ := 1
  stringIndex h := if h = 0 then some 2 else none
  numberIndex h := if h = 0 then some 1 else none

theorem compile_edges_threeCycle :
    let tuple : Model (Fin 3) :=
      ⟨.group .tuple [⟨.atom .recursive, some 0⟩, ⟨.array ⟨.atom .unidentified, some 1⟩, some 2⟩],
        some 1⟩
    let m : Model (Fin 3) :=
      ⟨.objectWithIndex [⟨"p", true, tuple⟩] ⟨.stringOrNumber, ⟨.atom .unidentified, some 2⟩⟩,
        some 0⟩
    Options.compile ⟨.detect, true, some 9, some 4⟩ Engine.threeCycle 0 = (m, true) ∧
      ∀ x ∈ m.preorder, ∃ k, x.origin = some k ∧
        Engine.threeCycle.EdgesOf k (x.shape.map (·.origin)) :=
  ⟨rfl, (compile_edges ⟨.detect, true, some 9, some 4⟩ Engine.threeCycle 0 rfl).2⟩

end TypeGraph
