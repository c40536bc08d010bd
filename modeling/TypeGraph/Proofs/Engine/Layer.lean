import TypeGraph.Engine
import TypeGraph.Shape
import Mathlib.Logic.Relation

/-!
# What a layer says about an engine

The rules take every part of a layer from an answer of the engine. `Engine.LayerOf e h` lists the
layers that a type `h` may have, with the answers they are made of, and `Engine.layerOf_classify`
says that its layer is one of them. So the types nested in a layer are among those that the type
leads to (`Engine.leads_of_mem_classify`).
-/

namespace TypeGraph

universe u v

variable {H : Type u} {S : Type v}

namespace Engine

/-- A type leads to its members, its arguments, the types its properties are declared with and the
types its index signatures lead to. -/
def Leads (e : Engine H S) (h k : H) : Prop :=
  k ∈ e.memberTypes h ∨ k ∈ e.typeArguments h ∨ (∃ s ∈ e.properties h, e.declaredType s = k) ∨
    e.stringIndex h = some k ∨ e.numberIndex h = some k

/-- Some steps lead from one type to the other. -/
def Reaches (e : Engine H S) : H → H → Prop := Relation.ReflTransGen e.Leads

/-- The layers that a type may have. -/
inductive LayerOf (e : Engine H S) (h : H) : Shape H → Prop
  | atom (a : Atom) : LayerOf e h (.atom a)
  | literal {l : Literal} (hl : e.literal? h = some l ∨ e.bigint? h = some l) :
      LayerOf e h (.literal l)
  | members {g : Group} (hg : g ≠ .tuple) : LayerOf e h (.group g (e.memberTypes h))
  | slots (hn : e.typeArguments h ≠ []) : LayerOf e h (.group .tuple (e.typeArguments h))
  | element {k : H} {ks : List H} (hk : e.typeArguments h = k :: ks) : LayerOf e h (.array k)
  | object (hs : e.signature? h = none) :
      LayerOf e h (.object ((e.properties h).map e.property))
  | objectWithIndex {s : Signature H} (hs : e.signature? h = some s) :
      LayerOf e h (.objectWithIndex ((e.properties h).map e.property) s)

variable {e : Engine H S} {h k : H}

theorem tupleSlots?_eq_some {slots : List H} (hs : e.tupleSlots? h = some slots) :
    e.typeArguments h = slots ∧ slots ≠ [] := by
  unfold tupleSlots? at hs
  split at hs
  · split at hs
    · cases hs
    next hn => exact Option.some.inj hs ▸ ⟨rfl, hn⟩
  · cases hs

theorem arrayElement?_eq_some (hk : e.arrayElement? h = some k) :
    ∃ ks, e.typeArguments h = k :: ks := by
  unfold arrayElement? at hk
  split at hk
  · split at hk
    next a as symbol ha hs =>
      split at hk
      · exact Option.some.inj hk ▸ ⟨as, ha⟩
      · cases hk
    · cases hk
  · cases hk

theorem layerOf_objectShape (e : Engine H S) (h : H) : e.LayerOf h (e.objectShape h) := by
  unfold objectShape
  split
  next slots hs =>
    obtain ⟨rfl, hn⟩ := tupleSlots?_eq_some hs
    exact .slots hn
  · split
    next element he =>
      obtain ⟨ks, hk⟩ := arrayElement?_eq_some he
      exact .element hk
    · dsimp only
      split
      next s hs => exact .objectWithIndex hs
      next hs => exact .object hs

/-- The layer that the rules give is made of answers of the engine. -/
theorem layerOf_classify (e : Engine H S) (h : H) : e.LayerOf h (e.classify h) := by
  unfold classify
  dsimp only
  split
  · exact .atom _
  split
  · exact .atom _
  split
  next l hl => exact .literal (.inl hl)
  split
  · exact .members Group.noConfusion
  split
  next l hl => exact .literal (.inr hl)
  split
  · exact .atom _
  split
  · exact .members Group.noConfusion
  split
  · exact .atom _
  split
  · exact layerOf_objectShape e h
  split
  · exact .members Group.noConfusion
  split
  · exact .members Group.noConfusion
  split
  · exact .atom _
  · exact .atom _

/-- Which of the two index queries answer decides on the signature. -/
theorem signature?_eq_some {s : Signature H} (hs : e.signature? h = some s) :
    (s.key = .stringOrNumber ∧ e.stringIndex h = some s.value ∧ (e.numberIndex h).isSome) ∨
      (s.key = .string ∧ e.stringIndex h = some s.value ∧ e.numberIndex h = none) ∨
        (s.key = .number ∧ e.stringIndex h = none ∧ e.numberIndex h = some s.value) := by
  unfold signature? at hs
  split at hs
  next value _ hv hn => exact .inl (Option.some.inj hs ▸ ⟨rfl, hv, by rw [hn]; rfl⟩)
  next value hv hn => exact .inr (.inr (Option.some.inj hs ▸ ⟨rfl, hv, hn⟩))
  next value hv hn => exact .inr (.inl (Option.some.inj hs ▸ ⟨rfl, hv, hn⟩))
  · cases hs

theorem signature?_eq_none (hs : e.signature? h = none) :
    e.stringIndex h = none ∧ e.numberIndex h = none := by
  unfold signature? at hs
  split at hs
  · cases hs
  · cases hs
  · cases hs
  next hv hn => exact ⟨hv, hn⟩

/-- The types nested in the layer of a type are among those it leads to. -/
theorem leads_of_mem_classify (hk : k ∈ (e.classify h).children) : e.Leads h k := by
  -- the values of properties are the declared types
  have props (hp : k ∈ ((e.properties h).map e.property).map (·.value)) : e.Leads h k := by
    rw [List.map_map, List.mem_map] at hp
    exact .inr (.inr (.inl hp))
  have hl := e.layerOf_classify h
  generalize e.classify h = shape at hk hl
  cases hl with
  | atom a => exact absurd hk List.not_mem_nil
  | literal hl => exact absurd hk List.not_mem_nil
  | members hg => exact .inl hk
  | slots hn => exact .inr (.inl hk)
  | element ha =>
    obtain rfl := List.mem_singleton.mp hk
    exact .inr (.inl (ha ▸ List.mem_cons_self ..))
  | object hs => exact props hk
  | objectWithIndex hs =>
    obtain hp | hv := List.mem_append.mp hk
    · exact props hp
    · obtain rfl := List.mem_singleton.mp hv
      obtain ⟨-, hs, -⟩ | ⟨-, hs, -⟩ | ⟨-, -, hs⟩ := signature?_eq_some hs
      · exact .inr (.inr (.inr (.inl hs)))
      · exact .inr (.inr (.inr (.inl hs)))
      · exact .inr (.inr (.inr (.inr hs)))

end Engine

end TypeGraph
