/-!
# Flag words

An engine reports what it knows about types and symbols in words of 32 bits. Some of the bits have
names (`TypeFlag`, `ObjectFlag`, `SymbolFlag`); the others are kept but mean nothing here.

* `Flags.has` tests one named flag, `Flags.of` makes a word of some;
* `Flags.named?` is the word a name stands for; a few names stand for several flags.
-/

namespace TypeGraph

/-- What an engine says about the category of a type. The categories overlap: a `boolean` is a
union as well. -/
inductive TypeFlag where
  | any | unknown | string | number | boolean | enum | bigint
  | stringLiteral | numberLiteral | booleanLiteral | enumLiteral | bigintLiteral
  | esSymbol | uniqueEsSymbol | void | undefined | null | never
  | typeParameter | object | union | intersection | index | indexedAccess
  | conditional | substitution | nonPrimitive | templateLiteral | stringMapping
  deriving DecidableEq, Repr

/-- What an engine says about an object type. -/
inductive ObjectFlag where
  | classType | interface | reference | tuple | anonymous | mapped | instantiated | objectLiteral
  deriving DecidableEq, Repr

/-- What an engine says about a symbol. -/
inductive SymbolFlag where
  | property | enumMember | method | getAccessor | setAccessor | optional
  deriving DecidableEq, Repr

/-- A family of named flags. -/
class FlagFamily (F : Type) where
  /-- the flags, by bit -/
  flags : List F
  bit : F → Nat
  name : F → String
  /-- names for several flags at once -/
  groups : List (String × List F)

/-- A word of flags. -/
structure Flags (F : Type) where
  word : BitVec 32
  deriving DecidableEq, Repr

namespace Flags

variable {F : Type}

/-- No flags. -/
def empty : Flags F := ⟨0⟩

/-- Whether a flag is set. -/
def has [FlagFamily F] (w : Flags F) (f : F) : Bool := w.word.getLsbD (FlagFamily.bit f)

/-- The word in which some flags are set. -/
def of [FlagFamily F] (fs : List F) : Flags F :=
  ⟨fs.foldr (fun f w => BitVec.twoPow 32 (FlagFamily.bit f) ||| w) 0⟩

/-- Whether all bits of another word are set. -/
def contains (a b : Flags F) : Bool := a.word &&& b.word = b.word

/-- Whether two words have a bit in common. -/
def intersects (a b : Flags F) : Bool := a.word &&& b.word ≠ 0

/-- The bits of both words. -/
def union (a b : Flags F) : Flags F := ⟨a.word ||| b.word⟩

/-- Whether no bit is set. -/
def isEmpty (a : Flags F) : Bool := a.word = 0

/-- All flags that have a name. -/
def all [FlagFamily F] : Flags F := of FlagFamily.flags

/-- The bits that have a name. -/
def truncate [FlagFamily F] (a : Flags F) : Flags F := ⟨a.word &&& all (F := F).word⟩

/-- Whether all bits have a name. -/
def isKnown [FlagFamily F] (a : Flags F) : Bool := a.truncate.word = a.word

/-- The word that a name stands for. -/
def named? [FlagFamily F] (name : String) : Option (Flags F) :=
  match (FlagFamily.flags (F := F)).find? (FlagFamily.name · = name) with
  | some f => some (of [f])
  | none => ((FlagFamily.groups (F := F)).find? (·.1 = name)).map fun g => of g.2

end Flags

/-! ## The families -/

/-- The bit of a type flag. -/
def TypeFlag.bit : TypeFlag → Nat
  | any => 0 | unknown => 1 | string => 2 | number => 3 | boolean => 4 | enum => 5 | bigint => 6
  | stringLiteral => 7 | numberLiteral => 8 | booleanLiteral => 9 | enumLiteral => 10
  | bigintLiteral => 11 | esSymbol => 12 | uniqueEsSymbol => 13 | void => 14 | undefined => 15
  | null => 16 | never => 17 | typeParameter => 18 | object => 19 | union => 20
  | intersection => 21 | index => 22 | indexedAccess => 23 | conditional => 24
  | substitution => 25 | nonPrimitive => 26 | templateLiteral => 27 | stringMapping => 28

/-- The bit of an object flag. -/
def ObjectFlag.bit : ObjectFlag → Nat
  | classType => 0 | interface => 1 | reference => 2 | tuple => 3 | anonymous => 4 | mapped => 5
  | instantiated => 6 | objectLiteral => 7

/-- The bit of a symbol flag. -/
def SymbolFlag.bit : SymbolFlag → Nat
  | property => 2 | enumMember => 3 | method => 13 | getAccessor => 15 | setAccessor => 16
  | optional => 24

/-- The name of a type flag. -/
def TypeFlag.name : TypeFlag → String
  | any => "ANY" | unknown => "UNKNOWN" | string => "STRING" | number => "NUMBER"
  | boolean => "BOOLEAN" | enum => "ENUM" | bigint => "BIG_INT"
  | stringLiteral => "STRING_LITERAL" | numberLiteral => "NUMBER_LITERAL"
  | booleanLiteral => "BOOLEAN_LITERAL" | enumLiteral => "ENUM_LITERAL"
  | bigintLiteral => "BIG_INT_LITERAL" | esSymbol => "ES_SYMBOL"
  | uniqueEsSymbol => "UNIQUE_ES_SYMBOL" | void => "VOID" | undefined => "UNDEFINED"
  | null => "NULL" | never => "NEVER" | typeParameter => "TYPE_PARAMETER" | object => "OBJECT"
  | union => "UNION" | intersection => "INTERSECTION" | index => "INDEX"
  | indexedAccess => "INDEXED_ACCESS" | conditional => "CONDITIONAL"
  | substitution => "SUBSTITUTION" | nonPrimitive => "NON_PRIMITIVE"
  | templateLiteral => "TEMPLATE_LITERAL" | stringMapping => "STRING_MAPPING"

/-- The name of an object flag. -/
def ObjectFlag.name : ObjectFlag → String
  | classType => "CLASS" | interface => "INTERFACE" | reference => "REFERENCE" | tuple => "TUPLE"
  | anonymous => "ANONYMOUS" | mapped => "MAPPED" | instantiated => "INSTANTIATED"
  | objectLiteral => "OBJECT_LITERAL"

/-- The name of a symbol flag. -/
def SymbolFlag.name : SymbolFlag → String
  | property => "PROPERTY" | enumMember => "ENUM_MEMBER" | method => "METHOD"
  | getAccessor => "GET_ACCESSOR" | setAccessor => "SET_ACCESSOR" | optional => "OPTIONAL"

instance : FlagFamily TypeFlag where
  flags :=
    [.any, .unknown, .string, .number, .boolean, .enum, .bigint, .stringLiteral, .numberLiteral,
      .booleanLiteral, .enumLiteral, .bigintLiteral, .esSymbol, .uniqueEsSymbol, .void,
      .undefined, .null, .never, .typeParameter, .object, .union, .intersection, .index,
      .indexedAccess, .conditional, .substitution, .nonPrimitive, .templateLiteral,
      .stringMapping]
  bit := TypeFlag.bit
  name := TypeFlag.name
  groups :=
    [("LITERAL", [.stringLiteral, .numberLiteral, .booleanLiteral, .bigintLiteral]),
      ("UNION_OR_INTERSECTION", [.union, .intersection]),
      ("ES_SYMBOL_LIKE", [.esSymbol, .uniqueEsSymbol])]

instance : FlagFamily ObjectFlag where
  flags :=
    [.classType, .interface, .reference, .tuple, .anonymous, .mapped, .instantiated, .objectLiteral]
  bit := ObjectFlag.bit
  name := ObjectFlag.name
  groups := []

instance : FlagFamily SymbolFlag where
  flags := [.property, .enumMember, .method, .getAccessor, .setAccessor, .optional]
  bit := SymbolFlag.bit
  name := SymbolFlag.name
  groups := []

/-- Flags of a type. -/
abbrev TypeFlags := Flags TypeFlag

/-- Flags of an object type. -/
abbrev ObjectFlags := Flags ObjectFlag

/-- Flags of a symbol. -/
abbrev SymbolFlags := Flags SymbolFlag

end TypeGraph
