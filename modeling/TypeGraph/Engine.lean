import TypeGraph.Shape
import TypeGraph.Flags

/-!
# Engines

An `Engine H S` answers queries about the types of a type checker, which it knows by handles `H`,
and about their symbols, known by handles `S`. The graph behind it may have cycles and need not
be finite.

* `Engine.classify` finds what one type is: the first rule of a fixed order that applies gives
  the layer, with the handles of the nested types in it.
-/

namespace TypeGraph

universe u v

/-- What a type checker tells about its types. A query that does not apply to a type has an empty
answer. -/
structure Engine (H : Type u) (S : Type v) where
  /-- the categories of a type -/
  typeFlags : H → TypeFlags
  /-- more about an object type -/
  objectFlags : H → ObjectFlags
  /-- the flags of the generic type that a type instantiates -/
  targetFlags : H → ObjectFlags
  /-- the arguments of the generic type that a type instantiates -/
  typeArguments : H → List H
  /-- the symbol that names a type -/
  typeSymbol : H → Option S
  stringLiteral : H → Option String
  numberLiteral : H → Option Double
  booleanLiteral : H → Option Bool
  bigintLiteral : H → Option BigIntLiteral
  /-- the members of a union or intersection -/
  memberTypes : H → List H
  /-- the properties of an object type -/
  properties : H → List S
  symbolName : S → String
  symbolFlags : S → SymbolFlags
  /-- the type that a symbol is declared with -/
  declaredType : S → H
  /-- the type that string keys lead to -/
  stringIndex : H → Option H
  /-- the type that number keys lead to -/
  numberIndex : H → Option H

/-- The name of the symbol of the built-in array type. -/
def arraySymbolName : String := "Array"

namespace Engine

variable {H : Type u} {S : Type v} (e : Engine H S)

/-- A string, number or boolean literal. A type flagged as one whose value is not known is none. -/
def literal? (h : H) : Option Literal :=
  let flags := e.typeFlags h
  let string := if flags.has .stringLiteral then (e.stringLiteral h).map .string else none
  let number := if flags.has .numberLiteral then (e.numberLiteral h).map .number else none
  let boolean := if flags.has .booleanLiteral then (e.booleanLiteral h).map .boolean else none
  string.or (number.or boolean)

/-- A bigint literal whose value is known. -/
def bigint? (h : H) : Option Literal :=
  if (e.typeFlags h).has .bigintLiteral then (e.bigintLiteral h).map .bigint else none

/-- The first flag of a list that is set decides. -/
def firstAtom? (flags : TypeFlags) (rules : List (TypeFlag × Atom)) : Option Atom :=
  (rules.find? fun rule => flags.has rule.1).map (·.2)

/-- The keyword types that literals and enums with a string, number or boolean flag come before. -/
def coreKeywords : List (TypeFlag × Atom) :=
  [(.string, .string), (.boolean, .boolean), (.number, .number)]

/-- The other types that a single flag tells. -/
def keywords : List (TypeFlag × Atom) :=
  [(.bigint, .bigint), (.esSymbol, .esSymbol), (.uniqueEsSymbol, .uniqueEsSymbol),
    (.void, .void), (.undefined, .undefined), (.null, .null), (.never, .never),
    (.typeParameter, .typeParameter)]

/-- The types whose structure is not looked at. -/
def markers : List (TypeFlag × Atom) :=
  [(.indexedAccess, .indexedAccess), (.conditional, .conditional),
    (.substitution, .substitution), (.nonPrimitive, .nonPrimitive)]

/-- The slots of a tuple type: an instantiated tuple with at least one argument. -/
def tupleSlots? (h : H) : Option (List H) :=
  if (e.objectFlags h).has .reference && (e.targetFlags h).has .tuple then
    match e.typeArguments h with
    | [] => none
    | slots => some slots
  else none

/-- The element type of an array type: an instantiation of the built-in array type. -/
def arrayElement? (h : H) : Option H :=
  if (e.objectFlags h).has .reference then
    match e.typeArguments h, e.typeSymbol h with
    | element :: _, some symbol =>
      if e.symbolName symbol = arraySymbolName then some element else none
    | _, _ => none
  else none

/-- A property of an object type. -/
def property (s : S) : Property H :=
  ⟨e.symbolName s, (e.symbolFlags s).has .optional, e.declaredType s⟩

/-- The index signature of an object type. With two of them the keys may be strings or numbers, and
string keys say what they lead to. -/
def signature? (h : H) : Option (Signature H) :=
  match e.stringIndex h, e.numberIndex h with
  | some value, some _ => some ⟨.stringOrNumber, value⟩
  | none, some value => some ⟨.number, value⟩
  | some value, none => some ⟨.string, value⟩
  | none, none => none

/-- The layer of an object type: a tuple, an array, or properties and at most one signature. -/
def objectShape (h : H) : Shape H :=
  match e.tupleSlots? h with
  | some slots => .group .tuple slots
  | none =>
    match e.arrayElement? h with
    | some element => .array element
    | none =>
      let props := (e.properties h).map e.property
      match e.signature? h with
      | some s => .objectWithIndex props s
      | none => .object props

/-- The layer of a type, with the handles of the nested types in it: the first rule that applies
decides. -/
def classify (h : H) : Shape H :=
  let flags := e.typeFlags h
  if flags.has .any then .atom .any
  else if flags.has .unknown then .atom .unknown
  else if let some l := e.literal? h then .literal l
  else if flags.has .enumLiteral && flags.has .union then .group .enumLiteral (e.memberTypes h)
  else if let some l := e.bigint? h then .literal l
  else if let some a := firstAtom? flags coreKeywords then .atom a
  else if flags.has .enum && flags.has .union then .group .enum (e.memberTypes h)
  else if let some a := firstAtom? flags keywords then .atom a
  else if flags.has .object then e.objectShape h
  else if flags.has .union then .group .union (e.memberTypes h)
  else if flags.has .intersection then .group .intersection (e.memberTypes h)
  else if let some a := firstAtom? flags markers then .atom a
  else .atom .unidentified

end Engine

end TypeGraph
