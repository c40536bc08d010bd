import TypeGraph.Arena

/-!
# Commands to an arena

A `Command` is one step in the making of an arena, and `Arena.apply` takes it. `Arena.run` takes
one after the other.
-/

namespace TypeGraph

namespace Arena

/-- A way to make a type around another one. -/
inductive Wrapping where
  | array | tuple | union | intersection | enum
  /-- a union of the type with itself -/
  | double
  /-- an object type with a string index -/
  | index
  /-- an object type with one property -/
  | property
  deriving DecidableEq, Repr

/-- A step in the making of an arena. -/
inductive Command where
  | intrinsic (flags : TypeFlags)
  | typeParameter
  | uniqueSymbol
  | reserve
  | stringLiteral (value : String)
  | numberLiteral (value : Double)
  | booleanLiteral (value : Bool)
  | bigintLiteral (value : BigIntLiteral)
  | union (members : List TypeId)
  | intersection (members : List TypeId)
  | enumMember (value : Double)
  | stringEnumMember (value : String)
  | enumLiteralUnion (members : List TypeId)
  | enumUnion (members : List TypeId)
  | property (name : String) (type : TypeId)
  | optionalProperty (name : String) (type : TypeId)
  | unresolvedProperty (name : String)
  | objectWithIndex (properties : List SymbolId) (string number : Option TypeId)
  | array (element : TypeId)
  | tuple (slots : List TypeId)
  | reference (name : String) (arguments : List TypeId)
  | define (id shapeOf : TypeId)
  /-- wrap a type a number of times -/
  | nest (how : Wrapping) (type : TypeId) (count : Nat)
  /-- a union of a number of string literals -/
  | wide (count : Nat)

/-- What a command makes. -/
inductive Result where
  | type (id : TypeId)
  | symbol (id : SymbolId)
  | defined (known : Bool)

/-- Makes a type around another one. -/
def wrap (a : Arena) (type : TypeId) : Wrapping → TypeId × Arena
  | .array => a.array type
  | .tuple => a.tuple [type]
  | .union => a.union [type]
  | .intersection => a.intersection [type]
  | .enum => a.enumUnion [type]
  | .double => a.union [type, type]
  | .index => a.objectWithIndex [] (some type) none
  | .property =>
    let (symbol, a) := a.property "p" type
    a.object [symbol]

/-- Makes types around each other, a number of times. -/
def wrapAll (a : Arena) (how : Wrapping) : TypeId → Nat → TypeId × Arena
  | type, 0 => (type, a)
  | type, count + 1 =>
    let (type, a) := a.wrap type how
    a.wrapAll how type count

/-- String literals with numbered texts. -/
def numbered (a : Arena) (count : Nat) : List TypeId × Arena :=
  mapAccum (fun n a => stringLiteral a ("m" ++ String.ofList (Nat.toDigits 10 n)))
    (List.range count) a

/-- A type as the result of a command. -/
def typeResult : TypeId × Arena → Result × Arena
  | (id, a) => (.type id, a)

/-- A symbol as the result of a command. -/
def symbolResult : SymbolId × Arena → Result × Arena
  | (id, a) => (.symbol id, a)

/-- Takes one step. -/
def apply (a : Arena) : Command → Result × Arena
  | .intrinsic flags => typeResult (a.intrinsic flags)
  | .typeParameter => typeResult a.typeParameter
  | .uniqueSymbol => typeResult a.uniqueSymbol
  | .reserve => typeResult a.reserve
  | .stringLiteral value => typeResult (a.stringLiteral value)
  | .numberLiteral value => typeResult (a.numberLiteral value)
  | .booleanLiteral value => (.type (booleanLiteral value), a)
  | .bigintLiteral value => typeResult (a.bigintLiteral value)
  | .union members => typeResult (a.union members)
  | .intersection members => typeResult (a.intersection members)
  | .enumMember value => typeResult (a.enumMember value)
  | .stringEnumMember value => typeResult (a.stringEnumMember value)
  | .enumLiteralUnion members => typeResult (a.enumLiteralUnion members)
  | .enumUnion members => typeResult (a.enumUnion members)
  | .property name type => symbolResult (a.property name type)
  | .optionalProperty name type => symbolResult (a.optionalProperty name type)
  | .unresolvedProperty name => symbolResult (a.unresolvedProperty name)
  | .objectWithIndex properties string number =>
    typeResult (a.objectWithIndex properties string number)
  | .array element => typeResult (a.array element)
  | .tuple slots => typeResult (a.tuple slots)
  | .reference name arguments => typeResult (a.reference name arguments)
  | .define id shapeOf => let (known, a) := a.define id shapeOf; (.defined known, a)
  | .nest how type count => typeResult (a.wrapAll how type count)
  | .wide count => let (members, a) := a.numbered count; typeResult (a.union members)

/-- Takes steps one after the other. -/
def run (a : Arena) (commands : List Command) : Arena :=
  commands.foldl (fun a c => (a.apply c).2) a

end Arena

end TypeGraph
