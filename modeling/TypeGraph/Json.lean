import TypeGraph.Double

/-!
# JSON values

A `Json` value keeps the members of an object in order, with repeated names; a number is either
an integer that fits 64 bits or a double.

* `Json.depth` counts how far arrays and objects nest.
-/

namespace TypeGraph

/-- A number of a document: an integer in 64 bits, signed or not, or a double. -/
inductive Number where
  | integer (value : Int)
  | float (value : Double)
  deriving DecidableEq, Repr

/-- A value that is neither an array nor an object. -/
inductive Scalar where
  | null
  | boolean (value : Bool)
  | number (value : Number)
  | string (value : String)
  deriving DecidableEq, Repr

/-- A JSON value. -/
inductive Json where
  | scalar (s : Scalar)
  | array (items : List Json)
  | object (members : List (String × Json))

namespace Json

/-- A string value. -/
abbrev string (s : String) : Json := scalar (.string s)

/-- A truth value. -/
abbrev boolean (b : Bool) : Json := scalar (.boolean b)

/-- A number. -/
abbrev number (n : Number) : Json := scalar (.number n)

/-- The value for something absent. -/
abbrev null : Json := scalar .null

mutual

/-- How many arrays and objects nest in each other, the value itself included. -/
def depth : Json → Nat
  | scalar _ => 0
  | array items => depthItems items + 1
  | object members => depthMembers members + 1

/-- The largest `depth` of the values of a list. -/
def depthItems : List Json → Nat
  | [] => 0
  | j :: js => max (depth j) (depthItems js)

/-- The largest `depth` of the values of a list of members. -/
def depthMembers : List (String × Json) → Nat
  | [] => 0
  | (_, j) :: ms => max (depth j) (depthMembers ms)

end

end Json

end TypeGraph
