import TypeGraph.Model
import TypeGraph.Json.Writer

/-!
# Models as JSON

A model is written as an object: its `kind`, then its payload. A property is the object of its
value with `name` and `optional` in front; an index signature is the object of an `index` model.
Origins are not written.

* `Shape.members` is the object for one layer, given those of the nested models;
* `Model.members` and `Model.toJson` are the object for a model, `Model.text` its text.
-/

namespace TypeGraph

universe u

/-- The members of a JSON object, in order. -/
abbrev Members := List (String × Json)

/-- The largest whole number up to which doubles tell all whole numbers apart. -/
def maxSafeInteger : Nat := Nat.pow 2 53 - 1

/-- A double as JSON: a whole number that is safe as an integer, and `null` if not finite. -/
def Double.toJson (d : Double) : Json :=
  match d.integer? with
  | some i => if i.natAbs ≤ maxSafeInteger then .number (.integer i) else .number (.float d)
  | none => if d.isFinite then .number (.float d) else .null

/-- The members of the object for a bigint literal. -/
def BigIntLiteral.members (b : BigIntLiteral) : Members :=
  [("negative", .boolean b.negative), ("base10Value", .string b.digits)]

/-- A literal value as JSON. -/
def Literal.toJson : Literal → Json
  | string s => .string s
  | number d => d.toJson
  | boolean b => .boolean b
  | bigint b => .object b.members

/-- The members of the object for a model that says no more than its kind. -/
def Atom.members (a : Atom) : Members := [("kind", .string a.name)]

/-- The members of the object for the model of a key type. -/
def KeyType.members : KeyType → Members
  | string => Atom.string.members
  | number => Atom.number.members
  | stringOrNumber =>
    [("kind", .string "union"),
      ("types", .array [.object Atom.string.members, .object Atom.number.members])]

/-- The members of the object for an index signature. -/
def Signature.members (s : Signature Members) : Members :=
  [("kind", .string "index"), ("keyType", .object s.key.members), ("valueType", .object s.value)]

/-- The members of the object for a property. -/
def Property.members (p : Property Members) : Members :=
  ("name", .string p.name) :: ("optional", .boolean p.optional) :: p.value

namespace Shape

/-- What a layer holds besides its kind. -/
def payload : Shape Members → Members
  | atom _ => []
  | literal l => [("value", l.toJson)]
  | group g ms => [(g.field, .array (ms.map .object))]
  | array m => [("type", .object m)]
  | index s => [("keyType", .object s.key.members), ("valueType", .object s.value)]
  | object ps => [("props", .array (ps.map fun p => .object p.members))]
  | objectWithIndex ps s =>
    [("props", .array (ps.map fun p => .object p.members)), ("index", .object s.members)]

/-- The members of the object for a layer. -/
def members (s : Shape Members) : Members := ("kind", .string s.kind.name) :: s.payload

end Shape

namespace Model

variable {H : Type u}

/-- The members of the object for a model. -/
def members : Model H → Members := fold fun _ s => s.members

theorem members_eq (m : Model H) : m.members = (m.shape.map members).members :=
  fold_eq _ m

/-- The JSON value for a model. -/
def toJson (m : Model H) : Json := .object m.members

/-- The JSON text of a model. -/
def text (m : Model H) : String := m.toJson.write

end Model

/-- The JSON text of a property. -/
def Property.text {H : Type u} (p : Property (Model H)) : String :=
  (Json.object (p.map Model.members).members).write

/-- The JSON text of an index signature. -/
def Signature.text {H : Type u} (s : Signature (Model H)) : String :=
  (Json.object (s.map Model.members).members).write

/-- The JSON text of a key type. -/
def KeyType.text (k : KeyType) : String := (Json.object k.members).write

/-- The JSON text of a bigint literal. -/
def BigIntLiteral.document (b : BigIntLiteral) : String := (Json.object b.members).write

end TypeGraph
