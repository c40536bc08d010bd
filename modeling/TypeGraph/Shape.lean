import TypeGraph.Kind
import TypeGraph.Double
import TypeGraph.BigIntLiteral

/-!
# One layer of a model

A `Shape α` is what a model says about its type, with an `α` in the place of every model nested
in it. The same layer serves for models, where `α` is the model itself, and for what an engine
answers about a type, where `α` is a handle still to be compiled.

* `Shape.children` lists the nested values in document order: the members of a group, the
  element of an array, the values of the properties, the value of the index signature;
* `Shape.map` and `Shape.mapAccum` replace them, the latter threading a state through them in
  that order;
* `Shape.agrees` compares two layers.
-/

namespace TypeGraph

universe u v w

variable {α : Type u} {β : Type v} {γ σ : Type w}

/-- The type of the keys of an index signature. -/
inductive KeyType where
  | string | number | stringOrNumber
  deriving DecidableEq, Repr

/-- Whether string keys are allowed. -/
def KeyType.acceptsString : KeyType → Bool
  | number => false
  | _ => true

/-- Whether number keys are allowed. -/
def KeyType.acceptsNumber : KeyType → Bool
  | string => false
  | _ => true

/-- A literal value. -/
inductive Literal where
  | string (value : String)
  | number (value : Double)
  | boolean (value : Bool)
  | bigint (value : BigIntLiteral)
  deriving DecidableEq, Repr

/-- The kind of a literal value. -/
def Literal.kind : Literal → LiteralKind
  | string _ => .string
  | number _ => .number
  | boolean _ => .boolean
  | bigint _ => .bigint

/-- Equality of literal values; numbers are compared as numbers. -/
def Literal.same : Literal → Literal → Bool
  | string a, string b => a = b
  | number a, number b => a.same b
  | boolean a, boolean b => a = b
  | bigint a, bigint b => a = b
  | _, _ => false

/-- A named member of an object type. -/
structure Property (α : Type u) where
  name : String
  optional : Bool
  value : α
  deriving DecidableEq, Repr

/-- An index signature: the type of its keys and the type of what they lead to. -/
structure Signature (α : Type u) where
  key : KeyType
  value : α
  deriving DecidableEq, Repr

/-- One layer of a model. -/
inductive Shape (α : Type u) where
  | atom (a : Atom)
  | literal (l : Literal)
  | group (g : Group) (members : List α)
  | array (element : α)
  | index (signature : Signature α)
  | object (props : List (Property α))
  | objectWithIndex (props : List (Property α)) (signature : Signature α)
  deriving DecidableEq, Repr

/-- Replaces the elements of a list from left to right, threading a state. -/
def mapAccum (f : α → σ → β × σ) : List α → σ → List β × σ
  | [], st => ([], st)
  | a :: as, st =>
    let (b, st) := f a st
    let (bs, st) := mapAccum f as st
    (b :: bs, st)

/-- Replaces the value of a property. -/
def Property.map (f : α → β) (p : Property α) : Property β := ⟨p.name, p.optional, f p.value⟩

/-- Replaces the value of a property, threading a state. -/
def Property.mapAccum (f : α → σ → β × σ) (p : Property α) (st : σ) : Property β × σ :=
  let (b, st) := f p.value st
  (⟨p.name, p.optional, b⟩, st)

/-- Whether two properties have one name, one flag and related values. -/
def Property.agrees (r : α → β → Bool) (p : Property α) (q : Property β) : Bool :=
  p.name = q.name && p.optional = q.optional && r p.value q.value

/-- Replaces the value type of a signature. -/
def Signature.map (f : α → β) (s : Signature α) : Signature β := ⟨s.key, f s.value⟩

/-- Replaces the value type of a signature, threading a state. -/
def Signature.mapAccum (f : α → σ → β × σ) (s : Signature α) (st : σ) : Signature β × σ :=
  let (b, st) := f s.value st
  (⟨s.key, b⟩, st)

/-- Whether two signatures have one key type and related values. -/
def Signature.agrees (r : α → β → Bool) (s : Signature α) (t : Signature β) : Bool :=
  s.key = t.key && r s.value t.value

/-- Whether two lists have one length and related elements. -/
def listAgrees (r : α → β → Bool) : List α → List β → Bool
  | [], [] => true
  | a :: as, b :: bs => r a b && listAgrees r as bs
  | _, _ => false

namespace Shape

/-- The kind of a layer. -/
def kind : Shape α → Kind
  | atom a => .atom a
  | literal l => .literal l.kind
  | group g _ => .group g
  | array _ => .array
  | index _ => .index
  | object _ => .object
  | objectWithIndex _ _ => .objectWithIndex

/-- The properties of an object layer; other layers have none. -/
def props : Shape α → List (Property α)
  | object ps | objectWithIndex ps _ => ps
  | _ => []

/-- The nested values, in document order. -/
def children : Shape α → List α
  | atom _ | literal _ => []
  | group _ ms => ms
  | array e => [e]
  | index s => [s.value]
  | object ps => ps.map (·.value)
  | objectWithIndex ps s => ps.map (·.value) ++ [s.value]

/-- Replaces the nested values. -/
def map (f : α → β) : Shape α → Shape β
  | atom a => atom a
  | literal l => literal l
  | group g ms => group g (ms.map f)
  | array e => array (f e)
  | index s => index (s.map f)
  | object ps => object (ps.map (·.map f))
  | objectWithIndex ps s => objectWithIndex (ps.map (·.map f)) (s.map f)

/-- Replaces the nested values in document order, threading a state. -/
def mapAccum (f : α → σ → β × σ) : Shape α → σ → Shape β × σ
  | atom a, st => (atom a, st)
  | literal l, st => (literal l, st)
  | group g ms, st =>
    let (ms, st) := TypeGraph.mapAccum f ms st
    (group g ms, st)
  | array e, st =>
    let (e, st) := f e st
    (array e, st)
  | index s, st =>
    let (s, st) := s.mapAccum f st
    (index s, st)
  | object ps, st =>
    let (ps, st) := TypeGraph.mapAccum (Property.mapAccum f) ps st
    (object ps, st)
  | objectWithIndex ps s, st =>
    let (ps, st) := TypeGraph.mapAccum (Property.mapAccum f) ps st
    let (s, st) := s.mapAccum f st
    (objectWithIndex ps s, st)

/-- Whether two layers are alike and their nested values related in order. -/
def agrees (r : α → β → Bool) : Shape α → Shape β → Bool
  | atom a, atom b => a = b
  | literal a, literal b => a.same b
  | group g ms, group h ns => g = h && listAgrees r ms ns
  | array a, array b => r a b
  | index s, index t => s.agrees r t
  | object ps, object qs => listAgrees (Property.agrees r) ps qs
  | objectWithIndex ps s, objectWithIndex qs t =>
    listAgrees (Property.agrees r) ps qs && s.agrees r t
  | _, _ => false

/-! ## Maps keep the layer -/

@[simp] theorem kind_map (f : α → β) (s : Shape α) : (s.map f).kind = s.kind := by
  cases s <;> rfl

@[simp] theorem children_map (f : α → β) (s : Shape α) :
    (s.map f).children = s.children.map f := by
  cases s <;> simp [map, children, Property.map, Signature.map]

theorem map_map (g : β → γ) (f : α → β) (s : Shape α) :
    (s.map f).map g = s.map (g ∘ f) := by
  cases s <;> simp [map, Property.map, Signature.map]

theorem map_congr {f g : α → β} {s : Shape α} (h : ∀ a ∈ s.children, f a = g a) :
    s.map f = s.map g := by
  cases s with
  | atom a => rfl
  | literal l => rfl
  | group k ms => exact congrArg (group k) (List.map_congr_left h)
  | array e => exact congrArg array (h e (by simp [children]))
  | index s => simp [map, Signature.map, h s.value (by simp [children])]
  | object ps =>
    refine congrArg object (List.map_congr_left fun p hp => ?_)
    simp [Property.map, h p.value (by simpa [children] using ⟨p, hp, rfl⟩)]
  | objectWithIndex ps s =>
    have hs : f s.value = g s.value := h s.value (by simp [children])
    have hp : ps.map (·.map f) = ps.map (·.map g) := List.map_congr_left fun p hp => by
      simp [Property.map, h p.value (List.mem_append_left _ (List.mem_map_of_mem hp))]
    simp [map, Signature.map, hs, hp]

end Shape

end TypeGraph
