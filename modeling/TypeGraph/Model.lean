import TypeGraph.Shape

/-!
# Models of types

A `Model H` is a finite tree that describes one type: a layer (`Shape`) whose nested values are
models again, and the handle of the engine's type that the model was made from, if it is kept.

* `Model.fold` is the one recursion on models; `Model.fold_eq` is its equation;
* `Model.induction` proves a property of all models from children to parent;
* `Model.same` compares what two models say and leaves their origins out.
-/

namespace TypeGraph

universe u v

/-- A finite description of one type. -/
structure Model (H : Type u) where
  shape : Shape (Model H)
  origin : Option H

namespace Model

variable {H : Type u} {G : Type v} {β : Type v}

/-! ## Recursion -/

mutual

/-- Computes a value for a model from the model and the values of the models nested in it. -/
def fold (f : Model H → Shape β → β) : Model H → β
  | ⟨shape, origin⟩ => f ⟨shape, origin⟩ (foldShape f shape)

/-- `fold` on the models nested in one layer. -/
def foldShape (f : Model H → Shape β → β) : Shape (Model H) → Shape β
  | .atom a => .atom a
  | .literal l => .literal l
  | .group g ms => .group g (foldList f ms)
  | .array m => .array (fold f m)
  | .index ⟨key, m⟩ => .index ⟨key, fold f m⟩
  | .object ps => .object (foldProps f ps)
  | .objectWithIndex ps ⟨key, m⟩ => .objectWithIndex (foldProps f ps) ⟨key, fold f m⟩

/-- `fold` on each model of a list. -/
def foldList (f : Model H → Shape β → β) : List (Model H) → List β
  | [] => []
  | m :: ms => fold f m :: foldList f ms

/-- `fold` on the value of each property of a list. -/
def foldProps (f : Model H → Shape β → β) : List (Property (Model H)) → List (Property β)
  | [] => []
  | ⟨name, optional, m⟩ :: ps => ⟨name, optional, fold f m⟩ :: foldProps f ps

end

theorem foldList_eq (f : Model H → Shape β → β) (ms : List (Model H)) :
    foldList f ms = ms.map (fold f) := by
  induction ms with
  | nil => rfl
  | cons m ms ih => simp [foldList, ih]

theorem foldProps_eq (f : Model H → Shape β → β) (ps : List (Property (Model H))) :
    foldProps f ps = ps.map (·.map (fold f)) := by
  induction ps with
  | nil => rfl
  | cons p ps ih => simp [foldProps, Property.map, ih]

theorem foldShape_eq (f : Model H → Shape β → β) (s : Shape (Model H)) :
    foldShape f s = s.map (fold f) := by
  rcases s with a | l | ⟨g, ms⟩ | m | ⟨key, m⟩ | ps | ⟨ps, ⟨key, m⟩⟩ <;>
    simp [foldShape, Shape.map, Signature.map, foldList_eq, foldProps_eq]

/-- A fold computes the nested models first. -/
theorem fold_eq (f : Model H → Shape β → β) (m : Model H) :
    fold f m = f m (m.shape.map (fold f)) := by
  cases m
  rw [fold, foldShape_eq]

/-- What holds of a model whenever it holds of its children holds of every model. -/
theorem induction {motive : Model H → Prop}
    (mk : ∀ s o, (∀ m ∈ s.children, motive m) → motive ⟨s, o⟩) (m : Model H) : motive m := by
  refine @Model.rec H motive (fun s => ∀ m ∈ s.children, motive m) (fun ms => ∀ m ∈ ms, motive m)
    (fun s => motive s.value) (fun ps => ∀ p ∈ ps, motive p.value) (fun p => motive p.value)
    (fun s o ih => mk s o ih) (by simp [Shape.children]) (by simp [Shape.children])
    (fun g ms ih => ih) (fun m ih => by simpa [Shape.children] using ih)
    (fun s ih => by simpa [Shape.children] using ih)
    (fun ps ih => by simpa [Shape.children] using ih)
    (fun ps s ih₁ ih₂ m hm => ?_) (by simp) (fun m ms ih₁ ih₂ => by simpa using ⟨ih₁, ih₂⟩)
    (fun _ _ ih => ih) (by simp) (fun p ps ih₁ ih₂ => by simpa using ⟨ih₁, ih₂⟩)
    (fun _ _ _ ih => ih) m
  simp only [Shape.children, List.mem_append, List.mem_map, List.mem_singleton] at hm
  rcases hm with ⟨p, hp, rfl⟩ | rfl
  · exact ih₁ p hp
  · exact ih₂

/-! ## Parts and constructors -/

/-- The kind of a model. -/
def kind (m : Model H) : Kind := m.shape.kind

/-- The models directly inside a model, in document order. -/
def children (m : Model H) : List (Model H) := m.shape.children

/-- A model without an origin. -/
def ofShape (s : Shape (Model H)) : Model H := ⟨s, none⟩

/-- A model that says no more than its kind. -/
def ofAtom (a : Atom) : Model H := ofShape (.atom a)

/-- The model of a literal type. -/
def ofLiteral (l : Literal) : Model H := ofShape (.literal l)

/-- The model of a union type. -/
def union (members : List (Model H)) : Model H := ofShape (.group .union members)

/-- The model of an array type. -/
def array (element : Model H) : Model H := ofShape (.array element)

/-! ## Equality -/

/-- Whether two models say the same; origins do not count, and number literals are compared as
numbers. -/
def same (m : Model H) : Model G → Bool :=
  fold (fun _ s (n : Model G) => s.agrees (fun sub n => sub n) n.shape) m

end Model

/-! ## The key types of index signatures -/

/-- The model of the key type itself: `string`, `number` or their union. -/
def KeyType.toModel {H : Type u} : KeyType → Model H
  | string => .ofAtom .string
  | number => .ofAtom .number
  | stringOrNumber => .union [.ofAtom .string, .ofAtom .number]

/-- The key type that a model stands for: `string`, `number` or a union of exactly these two in
either order. -/
def KeyType.ofModel? {H : Type u} (m : Model H) : Option KeyType :=
  match m.shape with
  | .atom .string => some .string
  | .atom .number => some .number
  | .group .union [a, b] =>
    match a.kind, b.kind with
    | .atom .string, .atom .number | .atom .number, .atom .string => some .stringOrNumber
    | _, _ => none
  | _ => none

end TypeGraph
