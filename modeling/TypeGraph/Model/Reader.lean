import TypeGraph.Model.Writer
import TypeGraph.Json.Record

/-!
# Models from JSON

The reader of a model looks up its `kind` first, then reads the fields of the payload in the order
of the document. Every field must be there once; other fields do not matter.

* `Shape.ofMembers` reads one layer, given how to read the models nested in it;
* `Model.ofMembers` and `Model.ofText` read a model from the members of an object and from a text;
* `Property.ofText`, `Signature.ofText` and `BigIntLiteral.ofText` read the other records.
-/

namespace TypeGraph

open View

/-! ## Kinds -/

/-- The kind that a word names. -/
def Kind.read (word : String) : Except Problem Kind :=
  match Kind.ofName? word with
  | some k => .ok k
  | none => refuse (.unknownVariant word (Kind.wireOrder.map Kind.name))

/-- The kind that a value gives, by its word or by its number. -/
def Kind.ofJson : Json → Except Problem Kind
  | .scalar (.string word) => Kind.read word
  | .scalar (.number (.integer i)) =>
    if i < 0 then refuse (.wrongType (.scalar (.number (.integer i))) .variant)
    else
      match Kind.wireOrder[i.toNat]? with
      | some k => .ok k
      | none => refuse (.variantOutOfRange i)
  | .scalar s => refuse (.wrongType (.scalar s) .variant)
  | .array _ => refuse (.wrongType .sequence .variant)
  | .object _ => refuse (.wrongType .map .variant)

/-- The kind of the model with these members. -/
def Kind.ofMembers (ms : Members) : Except Problem Kind := readField "kind" Kind.ofJson none ms

/-! ## Layers -/

section

variable {J : Type} {α β : Type}

/-- Reads a bigint literal. -/
def BigIntLiteral.read (v : View J) (j : J) : Except Problem BigIntLiteral := do
  let (negative, digits) ← v.record .bigint "negative" "base10Value" v.truth v.text j
  return ⟨negative, digits⟩

/-- Reads an object, given how to read its members. -/
def readObject (read : Members → Except Problem α) : Json → Except Problem α
  | .object ms => read ms
  | .array _ => refuse (.wrongType .sequence .model)
  | .scalar s => refuse (.wrongType (.scalar s) .model)

/-- Reads the value of a literal. -/
def Literal.read : LiteralKind → Json → Except Problem Literal
  | .string, j => do return .string (← Json.view.text j)
  | .number, j => do return .number (← Json.view.double j)
  | .boolean, j => do return .boolean (← Json.view.truth j)
  | .bigint, j => do return .bigint (← BigIntLiteral.read Json.view j)

/-- Reads a property from its members. All but `name` and `optional` are those of its value, which
is read last. -/
def Property.ofLayer (v : View J) (read : Members → Except Problem α) (ms : List (String × J))
    (flaw : Option Fault) : Except Problem (Property α) := do
  let (name, optional, rest) ← readFields "name" "optional" v.text v.truth
    (fun name j => do return (name, ← v.keep j)) none none ms flaw
  return ⟨name, optional, ← read rest⟩

/-- Reads a property of an object. -/
def Property.read (v : View J) (read : Members → Except Problem α) (j : J) :
    Except Problem (Property α) := do
  match ← v.layer j with
  | .map ms flaw => Property.ofLayer v read ms flaw
  | l => refuse (.wrongType l.found .property)

/-- The key type that a model stands for. -/
def KeyType.read {H : Type} (m : Model H) : Except Problem KeyType :=
  match KeyType.ofModel? m with
  | some k => .ok k
  | none => refuse (.notAKey m.kind)

/-- Reads an index signature. `readKey` and `read` read the types of its keys and values. -/
def Signature.read (v : View J) (readKey : J → Except Problem KeyType)
    (read : J → Except Problem α) (j : J) : Except Problem (Signature α) := do
  let (key, value) ← v.record .signature "keyType" "valueType" readKey read j
  return ⟨key, value⟩

/-- Reads one layer of a model from its members. `read` reads a nested model from its own members
and `readKey` a key type. -/
def Shape.ofMembers (readKey : Members → Except Problem KeyType)
    (read : Members → Except Problem α) (ms : Members) : Except Problem (Shape α) := do
  let model := readObject read
  let props := Json.view.items (Property.read Json.view read)
  let signature := Signature.read Json.view (readObject readKey) model
  match ← Kind.ofMembers ms with
  | .atom a => return .atom a
  | .literal k => return .literal (← readField "value" (Literal.read k) none ms)
  | .group g => return .group g (← readField g.field (Json.view.items model) none ms)
  | .array => return .array (← readField "type" model none ms)
  | .index => do
    let (key, value, _) ← readFields "keyType" "valueType" (readObject readKey) model
      (fun _ _ => .ok ()) none none ms none
    return .index ⟨key, value⟩
  | .object => return .object (← readField "props" props none ms)
  | .objectWithIndex => do
    let (ps, s, _) ← readFields "props" "index" props signature (fun _ _ => .ok ())
      none none ms none
    return .objectWithIndex ps s

end

/-! ## Models -/

namespace Model

/-- Reads a model from its members. Models nest at most `levels` deep in it. -/
def ofMembers {H : Type} : (levels : Nat) → Members → Except Problem (Model H)
  | 0, _ => .error (.fault .malformed)
  | levels + 1, ms => do
    let read := ofMembers (H := H) levels
    return ofShape (← Shape.ofMembers (fun ms => do KeyType.read (← read ms)) read ms)

/-- Reads a model from a value in memory. -/
def ofJson {H : Type} : Json → Except Problem (Model H) := readObject (ofMembers maxNesting)

/-- Reads a model from a part of a text that nests at most `levels` deep. An object is read to its
end first. -/
def ofDraft {H : Type} (levels : Nat) (d : Draft) : Except Problem (Model H) := do
  match ← Draft.view.layer d with
  | .map _ _ => ofJson (← ofFault (d.toJson levels))
  | l => refuse (.wrongType l.found .model)

end Model

/-! ## Texts -/

/-- Reads a whole text; nothing but blanks may follow the value. -/
def readText {α : Type} (read : Draft → Except Problem α) (text : String) : Except Problem α := do
  let (d, rest) := Draft.ofChars text.toList
  let a ← read d
  match skipBlanks rest with
  | [] => return a
  | _ :: _ => .error (.fault .malformed)

/-- Reads a model. -/
def Model.ofText {H : Type} : String → Except Problem (Model H) := readText (ofDraft maxNesting)

/-- Reads a property. -/
def Property.ofText {H : Type} : String → Except Problem (Property (Model H)) :=
  readText (Property.read Draft.view (Model.ofMembers maxNesting))

/-- Reads a key type, given as the model of the keys. -/
def KeyType.ofDraft (levels : Nat) (d : Draft) : Except Problem KeyType := do
  KeyType.read (← Model.ofDraft (H := Unit) levels d)

/-- Reads a key type. -/
def KeyType.ofText : String → Except Problem KeyType := readText (KeyType.ofDraft maxNesting)

/-- Reads an index signature. -/
def Signature.ofText {H : Type} : String → Except Problem (Signature (Model H)) :=
  readText (Signature.read Draft.view (KeyType.ofDraft (maxNesting - 1))
    (Model.ofDraft (maxNesting - 1)))

/-- Reads a bigint literal. -/
def BigIntLiteral.ofText : String → Except Problem BigIntLiteral :=
  readText (BigIntLiteral.read Draft.view)

end TypeGraph
