import TypeGraph.Arena.Command
import Mathlib.Data.Nat.Notation
import Mathlib.Tactic.SplitIfs

/-!
# Definitions

A `define` writes the entry of one type over that of another one (`Arena.put`) if both are there,
and does nothing otherwise (`Arena.define_cases`). Afterwards the engine answers about the type as
it did about the one that was copied, and about every other type as before (`Arena.engine_put`).

`Arena.definitions` lists what the commands of a run give to which types.
-/

namespace TypeGraph

universe u v

/-- The engine that answers about each type what another one answers about its image. -/
def Engine.along {H : Type u} {S : Type v} (e : Engine H S) (r : H → H) : Engine H S where
  typeFlags h := e.typeFlags (r h)
  objectFlags h := e.objectFlags (r h)
  targetFlags h := e.targetFlags (r h)
  typeArguments h := e.typeArguments (r h)
  typeSymbol h := e.typeSymbol (r h)
  stringLiteral h := e.stringLiteral (r h)
  numberLiteral h := e.numberLiteral (r h)
  booleanLiteral h := e.booleanLiteral (r h)
  bigintLiteral h := e.bigintLiteral (r h)
  memberTypes h := e.memberTypes (r h)
  properties h := e.properties (r h)
  symbolName := e.symbolName
  symbolFlags := e.symbolFlags
  declaredType := e.declaredType
  stringIndex h := e.stringIndex (r h)
  numberIndex h := e.numberIndex (r h)

namespace Arena

variable {a : Arena} {id shapeOf : TypeId} {entry : TypeEntry}

/-- Writes the entry of a type that is there. -/
def put (a : Arena) (id : TypeId) (entry : TypeEntry) : Arena :=
  { a with types := a.types.setIfInBounds id.index.toNat entry }

theorem size_put (a : Arena) (id : TypeId) (entry : TypeEntry) :
    (a.put id entry).types.size = a.types.size := Array.size_setIfInBounds

theorem index_lt_size_iff {id : TypeId} : id.index.toNat < a.types.size ↔ (a.type? id).isSome := by
  rw [type?, isSome_getElem?, Array.size]

theorem type?_put (hid : (a.type? id).isSome) (entry : TypeEntry) (k : TypeId) :
    (a.put id entry).type? k = if k = id then some entry else a.type? k := by
  have hlt := index_lt_size_iff.mpr hid
  show (a.types.setIfInBounds id.index.toNat entry)[k.index.toNat]? = _
  split_ifs with hk
  · rw [hk, Array.getElem?_setIfInBounds_self_of_lt hlt]
  · -- different handles are different numbers
    have hne : id.index.toNat ≠ k.index.toNat := by
      intro he
      obtain ⟨i⟩ := id
      obtain ⟨j⟩ := k
      exact hk (congrArg TypeId.mk (UInt32.toNat_inj.mp he.symm))
    rw [Array.getElem?_setIfInBounds_ne hne]
    rfl

/-- A `define` fails and leaves the arena as it was if one of the types is not there. Otherwise it
writes the entry of the second one. -/
theorem define_cases (a : Arena) (id shapeOf : TypeId) :
    a.define id shapeOf = (false, a) ∧ (a.type? id = none ∨ a.type? shapeOf = none) ∨
      ∃ entry, a.type? shapeOf = some entry ∧ (a.type? id).isSome ∧
        a.define id shapeOf = (true, a.put id entry) := by
  cases hs : a.type? shapeOf with
  | none =>
    refine .inl ⟨?_, .inr rfl⟩
    rw [define, ← type?, hs]
  | some entry =>
    by_cases hlt : id.index.toNat < a.types.size
    · refine .inr ⟨entry, rfl, index_lt_size_iff.mp hlt, ?_⟩
      rw [define, ← type?, hs]
      exact if_pos hlt
    · refine .inl ⟨?_, .inl ?_⟩
      · rw [define, ← type?, hs]
        exact if_neg hlt
      · rwa [index_lt_size_iff, Option.not_isSome_iff_eq_none] at hlt

/-- After one type was written over another one, the engine answers about the second as it did
about the first, and nothing else has changed. -/
theorem engine_put (hid : (a.type? id).isSome) (hs : a.type? shapeOf = some entry) :
    (a.put id entry).engine = a.engine.along fun k => if k = id then shapeOf else k := by
  have ht (k : TypeId) : (a.put id entry).type? k = a.type? (if k = id then shapeOf else k) := by
    rw [type?_put hid]
    split_ifs
    · exact hs.symm
    · rfl
  unfold engine Engine.along
  simp only [form?, ht]
  rfl

/-- Literals are looked up and made as they were before. -/
theorem fst_stringLiteral_put (a : Arena) (id : TypeId) (entry : TypeEntry) (value : String) :
    ((a.put id entry).stringLiteral value).1 = (a.stringLiteral value).1 := by
  have hs : (a.put id entry).strings = a.strings := rfl
  unfold stringLiteral
  rw [hs]
  split
  · rfl
  · exact congrArg (TypeId.mk ∘ UInt32.ofNat) (a.size_put id entry)

theorem fst_numberLiteral_put (a : Arena) (id : TypeId) (entry : TypeEntry) (value : Double) :
    ((a.put id entry).numberLiteral value).1 = (a.numberLiteral value).1 := by
  have hn : (a.put id entry).numbers = a.numbers := rfl
  unfold numberLiteral
  rw [hn]
  split
  · rfl
  · exact congrArg (TypeId.mk ∘ UInt32.ofNat) (a.size_put id entry)

/-! ## Definitions of a run -/

/-- What a command gives to which type: a `define` of types that are there gives the entry of the
second one to the first. -/
def defines (a : Arena) : Command → Option (TypeId × TypeEntry)
  | .define id shapeOf => if (a.define id shapeOf).1 then (a.type? shapeOf).map (id, ·) else none
  | _ => none

/-- What the commands of a run give to which types, in order. -/
def definitions : Arena → List Command → List (TypeId × TypeEntry)
  | _, [] => []
  | a, command :: commands =>
    (a.defines command).toList ++ definitions (a.apply command).2 commands

theorem apply_of_defines {command : Command} (h : a.defines command = some (id, entry)) :
    (a.type? id).isSome ∧ (a.apply command).2 = a.put id entry := by
  cases command with
  | define target shapeOf =>
    obtain ⟨hd, -⟩ | ⟨copied, hs, hi, hd⟩ := a.define_cases target shapeOf
    · rw [defines, hd] at h
      cases h
    · rw [defines, hd, if_pos rfl, hs, Option.map_some, Option.some.injEq, Prod.mk.injEq] at h
      obtain ⟨rfl, rfl⟩ := h
      exact ⟨hi, congrArg Prod.snd hd⟩
  | _ => cases h

theorem apply_define_of_none (h : a.defines (.define id shapeOf) = none) :
    (a.apply (.define id shapeOf)).2 = a := by
  obtain ⟨hd, -⟩ | ⟨copied, hs, -, hd⟩ := a.define_cases id shapeOf
  · exact congrArg Prod.snd hd
  · rw [defines, hd, if_pos rfl, hs] at h
    cases h

theorem defines_eq_none (a : Arena) {command : Command}
    (h : ∀ id shapeOf, command ≠ .define id shapeOf) : a.defines command = none := by
  cases command with
  | define id shapeOf => exact absurd rfl (h id shapeOf)
  | _ => rfl

end Arena

end TypeGraph
