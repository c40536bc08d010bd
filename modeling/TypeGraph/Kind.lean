/-!
# The kinds of a model

A `Kind` says which category of type a model stands for. Most kinds say all there is to say
(`Atom`); the others come with a payload: a literal value (`LiteralKind`), a list of models
(`Group`), an element, properties or an index signature.

* `Kind.all` lists the kinds in their order, `Kind.wireOrder` in the order by which a document
  may number them;
* `Kind.name` is the word a document uses, `Kind.ofName?` looks it up.
-/

namespace TypeGraph

/-- The kinds that carry no payload. -/
inductive Atom where
  | any | unknown | string | number | boolean | bigint
  | esSymbol | uniqueEsSymbol | void | undefined | null | never
  | typeParameter | nonPrimitive
  | indexedAccess | conditional | substitution | unidentified | recursive
  deriving DecidableEq, Repr

/-- The kinds of literal types. -/
inductive LiteralKind where
  | string | number | boolean | bigint
  deriving DecidableEq, Repr

/-- The kinds whose payload is a list of models. -/
inductive Group where
  | enum | enumLiteral | union | intersection | tuple
  deriving DecidableEq, Repr

/-- The category of type a model stands for. -/
inductive Kind where
  | atom (a : Atom)
  | literal (l : LiteralKind)
  | group (g : Group)
  | array | index | object | objectWithIndex
  deriving DecidableEq, Repr

/-- The word for an atom. -/
def Atom.name : Atom → String
  | any => "any" | unknown => "unknown" | string => "string" | number => "number"
  | boolean => "boolean" | bigint => "bigint" | esSymbol => "esSymbol"
  | uniqueEsSymbol => "uniqueEsSymbol" | void => "void" | undefined => "undefined"
  | null => "null" | never => "never" | typeParameter => "typeParameter"
  | nonPrimitive => "nonPrimitive" | indexedAccess => "indexedAccess"
  | conditional => "conditional" | substitution => "substitution"
  | unidentified => "unidentified" | recursive => "recursive"

/-- The word for a kind of literal. -/
def LiteralKind.name : LiteralKind → String
  | string => "stringLiteral" | number => "numberLiteral"
  | boolean => "booleanLiteral" | bigint => "bigintLiteral"

/-- The word for a kind with a list of models. -/
def Group.name : Group → String
  | enum => "enum" | enumLiteral => "enumLiteral" | union => "union"
  | intersection => "intersection" | tuple => "tuple"

/-- The field of a document that holds the models of a group. -/
def Group.field : Group → String
  | enum | enumLiteral => "values"
  | union | intersection | tuple => "types"

namespace Kind

/-- The word for a kind, as the `kind` field of a document gives it. -/
def name : Kind → String
  | atom a => a.name
  | literal l => l.name
  | group g => g.name
  | array => "array" | index => "index" | object => "object"
  | objectWithIndex => "objectWithIndex"

/-- Every kind, in order: keywords, literals and enums, composites, unresolved markers. -/
def all : List Kind :=
  [atom .any, atom .unknown, atom .string, atom .number, atom .boolean, atom .bigint,
    atom .esSymbol, atom .uniqueEsSymbol, atom .void, atom .undefined, atom .null, atom .never,
    atom .typeParameter, atom .nonPrimitive,
    literal .string, literal .number, literal .boolean, literal .bigint,
    group .enum, group .enumLiteral,
    group .union, group .intersection, index, object, objectWithIndex, array, group .tuple,
    atom .indexedAccess, atom .conditional, atom .substitution, atom .unidentified,
    atom .recursive]

/-- Every kind, in the order by which a document may number them instead of naming them. -/
def wireOrder : List Kind :=
  [atom .any, atom .unknown, atom .string, atom .number, atom .boolean, group .enum,
    atom .bigint, literal .string, literal .number, literal .boolean, group .enumLiteral,
    literal .bigint, atom .esSymbol, atom .uniqueEsSymbol, atom .void, atom .undefined,
    atom .null, atom .never, atom .typeParameter, group .union, group .intersection, index,
    atom .indexedAccess, atom .conditional, atom .substitution, atom .nonPrimitive,
    atom .unidentified, object, objectWithIndex, array, group .tuple, atom .recursive]

/-- The place of a kind in `all`. -/
def position (k : Kind) : Nat := all.idxOf k

/-- The kind a word names, if any. -/
def ofName? (word : String) : Option Kind := all.find? (·.name = word)

/-- Whether models of this kind carry no payload. -/
def isPayloadless : Kind → Bool
  | atom _ => true
  | _ => false

/-- Whether this kind only marks a type whose structure was not expanded. -/
def isMarker : Kind → Bool
  | atom .nonPrimitive | atom .indexedAccess | atom .conditional | atom .substitution
  | atom .unidentified | atom .recursive => true
  | _ => false

/-- Whether this is the kind of a literal value. -/
def isLiteral : Kind → Bool
  | literal _ => true
  | _ => false

/-- Kinds sorted by their place in `all`, equal ones kept in order. -/
def sort (ks : List Kind) : List Kind := ks.mergeSort (·.position ≤ ·.position)

theorem mem_all (k : Kind) : k ∈ all := by
  rcases k with a | l | g | _ | _ | _ | _
  · cases a <;> decide
  · cases l <;> decide
  · cases g <;> decide
  all_goals decide

end Kind

end TypeGraph
