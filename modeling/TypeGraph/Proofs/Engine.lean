import TypeGraph.Engine
import TypeGraph.Model
import Mathlib.Tactic.SplitIfs

/-!
# What the rules never say

The rules find what a type is by itself, so that none gives the mark of a cycle
(`Engine.kind_classify_ne`). In an engine of unions only (`Engine.ofMembers`) any graph can be had.
-/

namespace TypeGraph

universe u v

variable {H : Type u} {S : Type v}

namespace Engine

/-- A flag decides on an atom of the list it was looked up in. -/
theorem firstAtom?_ne {flags : TypeFlags} {rules : List (TypeFlag × Atom)} {a b : Atom}
    (hr : ∀ rule ∈ rules, rule.2 ≠ b) (h : firstAtom? flags rules = some a) : a ≠ b := by
  obtain ⟨rule, hf, rfl⟩ := Option.map_eq_some_iff.mp h
  exact hr rule (List.mem_of_find?_eq_some hf)

theorem kind_objectShape_ne (e : Engine H S) (h : H) (a : Atom) :
    (e.objectShape h).kind ≠ .atom a := by
  unfold objectShape
  split
  · exact Kind.noConfusion
  · split
    · exact Kind.noConfusion
    · dsimp only
      split <;> exact Kind.noConfusion

/-- No rule gives the mark of a cycle. -/
theorem kind_classify_ne (e : Engine H S) (h : H) : (e.classify h).kind ≠ .atom .recursive := by
  -- the only atoms are those of the rules and of the lists of flags
  have atom : ∀ {a : Atom}, a ≠ .recursive → (Shape.atom a : Shape H).kind ≠ .atom .recursive :=
    fun ha hk => ha (Kind.atom.inj hk)
  unfold classify
  dsimp only
  repeat' split
  case isTrue => exact atom Atom.noConfusion
  case isTrue => exact atom Atom.noConfusion
  case h_1 => exact Kind.noConfusion
  case isTrue => exact Kind.noConfusion
  case h_1 => exact Kind.noConfusion
  case h_1 a ha =>
    refine atom (firstAtom?_ne ?_ ha)
    decide
  case isTrue => exact Kind.noConfusion
  case h_1 a ha =>
    refine atom (firstAtom?_ne ?_ ha)
    decide
  case isTrue => exact kind_objectShape_ne e h _
  case isTrue => exact Kind.noConfusion
  case isTrue => exact Kind.noConfusion
  case h_1 a ha =>
    refine atom (firstAtom?_ne ?_ ha)
    decide
  case h_2 => exact atom Atom.noConfusion

/-- Nor is a model marked that has the layer of a type. -/
theorem kind_ne_of_map_eq (e : Engine H S) {α : Type u} {m : Model H} {f : Model H → α} {g : H → α}
    {h : H} (hs : m.shape.map f = (e.classify h).map g) : m.kind ≠ .atom .recursive := by
  rw [Model.kind, ← Shape.kind_map f, hs, Shape.kind_map]
  exact e.kind_classify_ne h

/-- An engine without symbols in which every type is the union of some others. -/
def ofMembers (members : H → List H) : Engine H Empty where
  typeFlags _ := .of [.union]
  objectFlags _ := .empty
  targetFlags _ := .empty
  typeArguments _ := []
  typeSymbol _ := none
  stringLiteral _ := none
  numberLiteral _ := none
  booleanLiteral _ := none
  bigintLiteral _ := none
  memberTypes := members
  properties _ := []
  symbolName := Empty.elim
  symbolFlags := Empty.elim
  declaredType := Empty.elim
  stringIndex _ := none
  numberIndex _ := none

/-- An engine of two unions, one empty and the other of itself and the empty one. -/
def selfUnion : Engine Bool Empty := ofMembers fun h => if h then [true, false] else []

/-- The model of the union of itself and the empty one, with a mark where it comes again. -/
def selfUnionModel : Model Bool :=
  ⟨.group .union [⟨.atom .recursive, some true⟩, ⟨.group .union [], some false⟩], some true⟩

end Engine

end TypeGraph
