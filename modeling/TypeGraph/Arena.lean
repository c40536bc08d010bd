import Std.Data.HashMap
import TypeGraph.Engine

/-!
# Type graphs built by hand

An `Arena` is a growing graph of types and symbols, numbered in the order in which they are made,
behind the queries of an engine (`Arena.engine`). The first fourteen types are there from the
start. Equal string literals share one type, as do number literals of one bit pattern.

* the builders, from `Arena.intrinsic` to `Arena.reference`, add types and symbols;
* `Arena.reserve` and `Arena.define` make cycles: a type is numbered first and gets the structure
  of another one later.
-/

namespace TypeGraph

/-- The number of a type of an arena. -/
structure TypeId where
  index : UInt32
  deriving DecidableEq, Repr

/-- The number of a symbol of an arena. -/
structure SymbolId where
  index : UInt32
  deriving DecidableEq, Repr

namespace TypeId

/-- The type that an unresolved declaration has. -/
def any : TypeId := ⟨0⟩

/-- The literal type `true`. -/
def trueLiteral : TypeId := ⟨12⟩

/-- The literal type `false`. -/
def falseLiteral : TypeId := ⟨13⟩

/-- The number of types that every arena starts with. -/
def firstDynamic : Nat := 14

end TypeId

namespace Arena

/-- The structure of a type. -/
inductive Form where
  | intrinsic
  | string (value : String)
  | number (value : Double)
  | boolean (value : Bool)
  | bigint (value : BigIntLiteral)
  | members (types : List TypeId)
  | object (properties : List SymbolId) (string number : Option TypeId)
  | reference (symbol : Option SymbolId) (target : ObjectFlags) (arguments : List TypeId)
  deriving Repr

/-- A type of an arena. -/
structure TypeEntry where
  flags : TypeFlags
  objectFlags : ObjectFlags
  form : Form
  deriving Repr

/-- A symbol of an arena. -/
structure SymbolEntry where
  name : String
  flags : SymbolFlags
  /-- the type it is declared with, if that can be resolved -/
  declaredType : Option TypeId
  deriving Repr

/-- A type that has flags and a structure and is no object type. -/
def TypeEntry.plain (flags : List TypeFlag) (s : Form) : TypeEntry := ⟨.of flags, .empty, s⟩

/-- A type of which nothing is known yet. -/
def TypeEntry.placeholder : TypeEntry := ⟨.empty, .empty, .intrinsic⟩

end Arena

open Arena

/-- A growing graph of types and symbols. -/
structure Arena where
  types : Array TypeEntry
  symbols : Array SymbolEntry
  /-- the string literals made so far -/
  strings : Std.HashMap String TypeId
  /-- the number literals made so far, by bit pattern -/
  numbers : Std.HashMap UInt64 TypeId

namespace Arena

/-- The types that every arena starts with. -/
def predeclared : List TypeEntry :=
  [.plain [.any] .intrinsic, .plain [.unknown] .intrinsic, .plain [.string] .intrinsic,
    .plain [.number] .intrinsic,
    .plain [.boolean, .union] (.members [.falseLiteral, .trueLiteral]),
    .plain [.bigint] .intrinsic, .plain [.esSymbol] .intrinsic, .plain [.void] .intrinsic,
    .plain [.undefined] .intrinsic, .plain [.null] .intrinsic, .plain [.never] .intrinsic,
    .plain [.nonPrimitive] .intrinsic,
    .plain [.booleanLiteral] (.boolean true), .plain [.booleanLiteral] (.boolean false)]

/-- The symbol of the built-in array type. -/
def arraySymbol : SymbolId := ⟨0⟩

/-- The arena without further types. -/
def new : Arena where
  types := predeclared.toArray
  symbols := #[⟨arraySymbolName, .empty, none⟩]
  strings := ∅
  numbers := ∅

/-- The number of types. -/
def size (a : Arena) : Nat := a.types.size

/-- Adds a type. -/
def push (a : Arena) (entry : TypeEntry) : TypeId × Arena :=
  (⟨.ofNat a.types.size⟩, { a with types := a.types.push entry })

/-- Adds a symbol. -/
def pushSymbol (a : Arena) (entry : SymbolEntry) : SymbolId × Arena :=
  (⟨.ofNat a.symbols.size⟩, { a with symbols := a.symbols.push entry })

/-! ## Types -/

/-- A type with flags and no structure. -/
def intrinsic (a : Arena) (flags : TypeFlags) : TypeId × Arena :=
  a.push ⟨flags, .empty, .intrinsic⟩

/-- A type parameter. -/
def typeParameter (a : Arena) : TypeId × Arena := a.intrinsic (.of [.typeParameter])

/-- The type of a unique symbol. -/
def uniqueSymbol (a : Arena) : TypeId × Arena := a.intrinsic (.of [.uniqueEsSymbol])

/-- A string literal, the same type for the same text. -/
def stringLiteral (a : Arena) (value : String) : TypeId × Arena :=
  match a.strings[value]? with
  | some id => (id, a)
  | none =>
    let (id, a) := a.push (.plain [.stringLiteral] (.string value))
    (id, { a with strings := a.strings.insert value id })

/-- A number literal, the same type for the same bit pattern. -/
def numberLiteral (a : Arena) (value : Double) : TypeId × Arena :=
  match a.numbers[value.bits]? with
  | some id => (id, a)
  | none =>
    let (id, a) := a.push (.plain [.numberLiteral] (.number value))
    (id, { a with numbers := a.numbers.insert value.bits id })

/-- A boolean literal. -/
def booleanLiteral (value : Bool) : TypeId := if value then .trueLiteral else .falseLiteral

/-- A bigint literal. -/
def bigintLiteral (a : Arena) (value : BigIntLiteral) : TypeId × Arena :=
  a.push (.plain [.bigintLiteral] (.bigint value))

/-- A union. -/
def union (a : Arena) (members : List TypeId) : TypeId × Arena :=
  a.push (.plain [.union] (.members members))

/-- An intersection. -/
def intersection (a : Arena) (members : List TypeId) : TypeId × Arena :=
  a.push (.plain [.intersection] (.members members))

/-- A member of an enum with a number as its value. -/
def enumMember (a : Arena) (value : Double) : TypeId × Arena :=
  a.push (.plain [.numberLiteral, .enumLiteral] (.number value))

/-- A member of an enum with a string as its value. -/
def stringEnumMember (a : Arena) (value : String) : TypeId × Arena :=
  a.push (.plain [.stringLiteral, .enumLiteral] (.string value))

/-- An enum whose members are all literals. -/
def enumLiteralUnion (a : Arena) (members : List TypeId) : TypeId × Arena :=
  a.push (.plain [.enumLiteral, .union] (.members members))

/-- An enum with computed members. -/
def enumUnion (a : Arena) (members : List TypeId) : TypeId × Arena :=
  a.push (.plain [.enum, .union] (.members members))

/-- An object type with properties and index signatures. -/
def objectWithIndex (a : Arena) (properties : List SymbolId) (string number : Option TypeId) :
    TypeId × Arena :=
  a.push ⟨.of [.object], .of [.anonymous], .object properties string number⟩

/-- An object type with properties. -/
def object (a : Arena) (properties : List SymbolId) : TypeId × Arena :=
  a.objectWithIndex properties none none

/-- An instantiation of a generic type. -/
def pushReference (a : Arena) (symbol : Option SymbolId) (target : ObjectFlag)
    (arguments : List TypeId) : TypeId × Arena :=
  a.push ⟨.of [.object], .of [.reference], .reference symbol (.of [target]) arguments⟩

/-- An array type. -/
def array (a : Arena) (element : TypeId) : TypeId × Arena :=
  a.pushReference (some arraySymbol) .interface [element]

/-- A tuple type. -/
def tuple (a : Arena) (slots : List TypeId) : TypeId × Arena := a.pushReference none .tuple slots

/-- An instantiation of a generic interface of this name. -/
def reference (a : Arena) (name : String) (arguments : List TypeId) : TypeId × Arena :=
  let (symbol, a) := a.pushSymbol ⟨name, .empty, none⟩
  a.pushReference (some symbol) .interface arguments

/-- A type that gets its flags and structure later. -/
def reserve (a : Arena) : TypeId × Arena := a.push .placeholder

/-- Gives a type the flags and structure of another one, if both are there. -/
def define (a : Arena) (id shapeOf : TypeId) : Bool × Arena :=
  match a.types[shapeOf.index.toNat]? with
  | none => (false, a)
  | some entry =>
    if id.index.toNat < a.types.size then
      (true, { a with types := a.types.setIfInBounds id.index.toNat entry })
    else (false, a)

/-! ## Symbols -/

/-- A property. -/
def property (a : Arena) (name : String) (type : TypeId) : SymbolId × Arena :=
  a.pushSymbol ⟨name, .of [.property], some type⟩

/-- An optional property. -/
def optionalProperty (a : Arena) (name : String) (type : TypeId) : SymbolId × Arena :=
  a.pushSymbol ⟨name, .of [.property, .optional], some type⟩

/-- A property whose declaration cannot be resolved. -/
def unresolvedProperty (a : Arena) (name : String) : SymbolId × Arena :=
  a.pushSymbol ⟨name, .of [.property], none⟩

/-! ## Queries -/

/-- The entry of a type. -/
def type? (a : Arena) (id : TypeId) : Option TypeEntry := a.types[id.index.toNat]?

/-- The structure of a type. -/
def form? (a : Arena) (id : TypeId) : Option Form := (a.type? id).map (·.form)

/-- The entry of a symbol. -/
def symbol? (a : Arena) (id : SymbolId) : Option SymbolEntry := a.symbols[id.index.toNat]?

/-- The queries of an engine. A number that no type or symbol has gets empty answers. -/
def engine (a : Arena) : Engine TypeId SymbolId where
  typeFlags id := ((a.type? id).map (·.flags)).getD .empty
  objectFlags id := ((a.type? id).map (·.objectFlags)).getD .empty
  targetFlags id :=
    match a.form? id with
    | some (.reference _ target _) => target
    | _ => .empty
  typeArguments id :=
    match a.form? id with
    | some (.reference _ _ arguments) => arguments
    | _ => []
  typeSymbol id :=
    match a.form? id with
    | some (.reference symbol _ _) => symbol
    | _ => none
  stringLiteral id :=
    match a.form? id with
    | some (.string value) => some value
    | _ => none
  numberLiteral id :=
    match a.form? id with
    | some (.number value) => some value
    | _ => none
  booleanLiteral id :=
    match a.form? id with
    | some (.boolean value) => some value
    | _ => none
  bigintLiteral id :=
    match a.form? id with
    | some (.bigint value) => some value
    | _ => none
  memberTypes id :=
    match a.form? id with
    | some (.members types) => types
    | _ => []
  properties id :=
    match a.form? id with
    | some (.object properties _ _) => properties
    | _ => []
  symbolName s := ((a.symbol? s).map (·.name)).getD ""
  symbolFlags s := ((a.symbol? s).map (·.flags)).getD .empty
  declaredType s := ((a.symbol? s).bind (·.declaredType)).getD .any
  stringIndex id :=
    match a.form? id with
    | some (.object _ string _) => string
    | _ => none
  numberIndex id :=
    match a.form? id with
    | some (.object _ _ number) => number
    | _ => none

end Arena

end TypeGraph
