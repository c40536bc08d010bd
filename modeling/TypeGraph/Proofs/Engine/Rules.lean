import TypeGraph.Engine

/-!
# What flags decide

The layer of a type whose flags are exactly those of one category (`Atom.flags`, `Group.flags`,
`LiteralKind.flag`): no earlier rule applies, so that the flags decide, whatever else the engine
answers about an atom or a group (`Engine.classify_atom`, `Engine.classify_members`). A literal
must have its value besides (`Engine.classify_literal`), and of an object type the object flags
tell whether it is a tuple, an array or neither (`Engine.classify_object`).
-/

namespace TypeGraph

universe u v

/-! ## Words of flags -/

/-- A word has the flags that it is made of, where a bit tells its flag. -/
theorem Flags.has_of {F : Type} [FlagFamily F] [DecidableEq F]
    (hlt : ∀ f : F, FlagFamily.bit f < 32)
    (found : ∀ f : F, FlagFamily.flags.find? (FlagFamily.bit · = FlagFamily.bit f) = some f)
    (fs : List F) (f : F) : (Flags.of fs).has f = decide (f ∈ fs) := by
  rw [has, of]
  induction fs with
  | nil => simp
  | cons g fs ih =>
    have hg : FlagFamily.bit g = FlagFamily.bit f ↔ f = g := by
      refine ⟨fun h => Option.some.inj ?_, fun h => h ▸ rfl⟩
      rw [← found f, ← found g, h]
    rw [List.foldr_cons, BitVec.getLsbD_or, ih, BitVec.getLsbD_twoPow]
    simp [hlt, hg]

@[simp] theorem TypeFlag.has_of (fs : List TypeFlag) (f : TypeFlag) :
    (Flags.of fs).has f = decide (f ∈ fs) :=
  Flags.has_of (fun f => by cases f <;> decide) (fun f => by cases f <;> rfl) fs f

@[simp] theorem ObjectFlag.has_of (fs : List ObjectFlag) (f : ObjectFlag) :
    (Flags.of fs).has f = decide (f ∈ fs) :=
  Flags.has_of (fun f => by cases f <;> decide) (fun f => by cases f <;> rfl) fs f

@[simp] theorem SymbolFlag.has_of (fs : List SymbolFlag) (f : SymbolFlag) :
    (Flags.of fs).has f = decide (f ∈ fs) :=
  Flags.has_of (fun f => by cases f <;> decide) (fun f => by cases f <;> rfl) fs f

/-! ## The flags of a category -/

/-- The flags of the types that an atom stands for; no type is `recursive`. -/
def Atom.flags : Atom → List TypeFlag
  | any => [.any] | unknown => [.unknown] | string => [.string] | number => [.number]
  | boolean => [.boolean, .union] | bigint => [.bigint] | esSymbol => [.esSymbol]
  | uniqueEsSymbol => [.uniqueEsSymbol] | void => [.void] | undefined => [.undefined]
  | null => [.null] | never => [.never] | typeParameter => [.typeParameter]
  | nonPrimitive => [.nonPrimitive] | indexedAccess => [.indexedAccess]
  | conditional => [.conditional] | substitution => [.substitution]
  | unidentified | recursive => []

/-- The flag of the literal types of a kind. -/
def LiteralKind.flag : LiteralKind → TypeFlag
  | string => .stringLiteral | number => .numberLiteral
  | boolean => .booleanLiteral | bigint => .bigintLiteral

/-- The flags of the types with a list of types. -/
def Group.flags : Group → List TypeFlag
  | enum => [.enum, .union] | enumLiteral => [.enumLiteral, .union] | union => [.union]
  | intersection => [.intersection] | tuple => [.object]

namespace Engine

variable {H : Type u} {S : Type v} {e : Engine H S} {h : H}

/-- What an engine answers when asked for a literal of some kind. -/
def value? (e : Engine H S) (h : H) : LiteralKind → Option Literal
  | .string => (e.stringLiteral h).map .string
  | .number => (e.numberLiteral h).map .number
  | .boolean => (e.booleanLiteral h).map .boolean
  | .bigint => (e.bigintLiteral h).map .bigint

theorem classify_atom {a : Atom} (ha : a ≠ .recursive) (hf : e.typeFlags h = .of a.flags) :
    e.classify h = .atom a := by
  cases a with
  | recursive => exact absurd rfl ha
  | _ =>
    simp [classify, literal?, bigint?, firstAtom?, coreKeywords, keywords, markers, hf, Atom.flags]

theorem classify_members {g : Group} (hg : g ≠ .tuple) (hf : e.typeFlags h = .of g.flags) :
    e.classify h = .group g (e.memberTypes h) := by
  cases g with
  | tuple => exact absurd rfl hg
  | _ => simp [classify, literal?, bigint?, firstAtom?, coreKeywords, keywords, hf, Group.flags]

theorem classify_literal {k : LiteralKind} {l : Literal} (hf : e.typeFlags h = .of [k.flag])
    (hl : e.value? h k = some l) : e.classify h = .literal l := by
  cases k <;> rw [value?] at hl <;>
    simp [classify, literal?, bigint?, hf, LiteralKind.flag, hl]

theorem classify_object (hf : e.typeFlags h = .of [.object]) :
    e.classify h = e.objectShape h := by
  simp [classify, literal?, bigint?, firstAtom?, coreKeywords, keywords, hf]

/-! ## Object types -/

theorem objectShape_tuple (hf : e.objectFlags h = .of [.reference])
    (ht : e.targetFlags h = .of [.tuple]) (ha : e.typeArguments h ≠ []) :
    e.objectShape h = .group .tuple (e.typeArguments h) := by
  have hs : e.tupleSlots? h = some (e.typeArguments h) := by
    cases hk : e.typeArguments h with
    | nil => exact absurd hk ha
    | cons k ks => simp [tupleSlots?, hf, ht, hk]
  rw [objectShape, hs]

theorem objectShape_array {k : H} {s : S} (hf : e.objectFlags h = .of [.reference])
    (ht : e.targetFlags h = .of [.interface]) (ha : e.typeArguments h = [k])
    (hs : e.typeSymbol h = some s) (hn : e.symbolName s = arraySymbolName) :
    e.objectShape h = .array k := by
  have ht : e.tupleSlots? h = none := by simp [tupleSlots?, ht]
  have he : e.arrayElement? h = some k := by simp [arrayElement?, hf, ha, hs, hn]
  rw [objectShape, ht, he]

section

variable (hf : e.objectFlags h = .of [.anonymous])

include hf

theorem objectShape_object (hs : e.signature? h = none) :
    e.objectShape h = .object ((e.properties h).map e.property) := by
  have ht : e.tupleSlots? h = none := by simp [tupleSlots?, hf]
  have he : e.arrayElement? h = none := by simp [arrayElement?, hf]
  rw [objectShape, ht, he]
  simp only [hs]

theorem objectShape_objectWithIndex {s : Signature H} (hs : e.signature? h = some s) :
    e.objectShape h = .objectWithIndex ((e.properties h).map e.property) s := by
  have ht : e.tupleSlots? h = none := by simp [tupleSlots?, hf]
  have he : e.arrayElement? h = none := by simp [arrayElement?, hf]
  rw [objectShape, ht, he]
  simp only [hs]

end

end Engine

end TypeGraph
