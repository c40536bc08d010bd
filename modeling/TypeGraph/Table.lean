import Std.Data.HashMap
import TypeGraph.Engine

/-!
# Engines given by tables

A `Table` lists the answers of an engine for types and symbols known by name. What it does not list
has empty answers.
-/

namespace TypeGraph

namespace Table

/-- The answers for one type. -/
structure TypeRow where
  flags : TypeFlags := .empty
  objectFlags : ObjectFlags := .empty
  targetFlags : ObjectFlags := .empty
  arguments : List String := []
  symbol : Option String := none
  string : Option String := none
  number : Option Double := none
  boolean : Option Bool := none
  bigint : Option BigIntLiteral := none
  members : List String := []
  properties : List String := []
  stringIndex : Option String := none
  numberIndex : Option String := none

/-- The answers for one symbol. -/
structure SymbolRow where
  name : String := ""
  flags : SymbolFlags := .empty
  type : String := ""

end Table

/-- The answers of an engine, by name. -/
structure Table where
  types : Std.HashMap String Table.TypeRow
  symbols : Std.HashMap String Table.SymbolRow

namespace Table

/-- The answers for a type. -/
def typeRow (t : Table) (name : String) : TypeRow := t.types.getD name {}

/-- The answers for a symbol. -/
def symbolRow (t : Table) (name : String) : SymbolRow := t.symbols.getD name {}

/-- The queries of an engine. -/
def engine (t : Table) : Engine String String where
  typeFlags h := (t.typeRow h).flags
  objectFlags h := (t.typeRow h).objectFlags
  targetFlags h := (t.typeRow h).targetFlags
  typeArguments h := (t.typeRow h).arguments
  typeSymbol h := (t.typeRow h).symbol
  stringLiteral h := (t.typeRow h).string
  numberLiteral h := (t.typeRow h).number
  booleanLiteral h := (t.typeRow h).boolean
  bigintLiteral h := (t.typeRow h).bigint
  memberTypes h := (t.typeRow h).members
  properties h := (t.typeRow h).properties
  symbolName s := (t.symbolRow s).name
  symbolFlags s := (t.symbolRow s).flags
  declaredType s := (t.symbolRow s).type
  stringIndex h := (t.typeRow h).stringIndex
  numberIndex h := (t.typeRow h).numberIndex

end Table

end TypeGraph
