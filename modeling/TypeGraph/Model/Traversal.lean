import TypeGraph.Model

/-!
# Reading through a model

* `Model.preorder` lists a model and all models nested in it, parents first;
* `Model.walk` visits them in that order with a stack of its own; the visitor may skip what is
  nested in a model;
* `Model.nodeCount`, `Model.containsKind`, `Model.kinds` and `Model.origins` are walks;
* `Model.height` counts the levels of the tree and `Model.deepest` finds its deepest model.
-/

namespace TypeGraph

universe u v

namespace Model

variable {H : Type u} {σ : Type v}

/-- The model and all models nested in it, each before its children and children in order. -/
def preorder (m : Model H) : List (Model H) :=
  fold (fun m s => m :: s.children.flatten) m

/-- The number of models in the tree. -/
def size : Model H → Nat := fold fun _ s => s.children.foldr (· + ·) 0 + 1

/-- The number of models in some trees. -/
def sizeAll (ms : List (Model H)) : Nat := ms.foldr (fun m n => m.size + n) 0

theorem size_eq (m : Model H) : m.size = sizeAll m.children + 1 := by
  rw [size, fold_eq, Shape.children_map, List.foldr_map]
  rfl

theorem sizeAll_cons (m : Model H) (ms : List (Model H)) :
    sizeAll (m :: ms) = m.size + sizeAll ms := rfl

theorem sizeAll_append (ms ns : List (Model H)) :
    sizeAll (ms ++ ns) = sizeAll ms + sizeAll ns := by
  induction ms with
  | nil => exact (Nat.zero_add _).symm
  | cons m ms ih => rw [List.cons_append, sizeAll_cons, sizeAll_cons, ih, Nat.add_assoc]

/-! ## Walks -/

/-- Visits the models of a stack, first to last. Where the visitor says `true`, the children of
the visited model come next. -/
def walkAll (visit : Model H → σ → Bool × σ) : List (Model H) → σ → σ
  | [], st => st
  | m :: stack, st =>
    match visit m st with
    | (true, st) => walkAll visit (m.children ++ stack) st
    | (false, st) => walkAll visit stack st
  termination_by stack => sizeAll stack
  decreasing_by
    · rw [sizeAll_append, sizeAll_cons, size_eq]
      omega
    · rw [sizeAll_cons, size_eq]
      omega

/-- Visits a model and the models nested in it, parents first and children in order; where the
visitor says `false`, what is nested in the visited model is left out. -/
def walk (visit : Model H → σ → Bool × σ) (m : Model H) (st : σ) : σ := walkAll visit [m] st

/-- The number of models that a walk visits. -/
def nodeCount (m : Model H) : Nat := m.walk (fun _ n => (true, n + 1)) 0

/-- Whether a model of this kind occurs; a walk that stops descending once it has found one. -/
def containsKind (k : Kind) (m : Model H) : Bool :=
  m.walk (fun m found => let found := found || m.kind = k; (!found, found)) false

/-- The kinds of the visited models, in order, without what is nested in models of a skipped
kind. -/
def kindsSkipping (skipped : List Kind) (m : Model H) : List Kind :=
  (m.walk (fun m ks => (!skipped.contains m.kind, m.kind :: ks)) []).reverse

/-- The kinds of all models, in order. -/
def kinds (m : Model H) : List Kind := m.kindsSkipping []

/-- The origins of all models, in order. -/
def origins (m : Model H) : List (Option H) :=
  (m.walk (fun m os => (true, m.origin :: os)) []).reverse

/-! ## Levels -/

/-- The number of levels of the tree. -/
def height : Model H → Nat := fold fun _ s => s.children.foldl max 0 + 1

/-- The first of the deepest elements, of which a list gives depth and kind; `k` if there are
none. -/
def firstDeepest (k : Kind) (found : List (Nat × Kind)) : Nat × Kind :=
  found.foldl (fun best next => if best.1 < next.1 then next else best) (0, k)

/-- The number of levels and the kind of the first model on the deepest one. -/
def deepest : Model H → Nat × Kind :=
  fold fun _ s => let (levels, k) := firstDeepest s.kind s.children; (levels + 1, k)

/-- Counts a kind once more. -/
def countKind (k : Kind) : List (Kind × Nat) → List (Kind × Nat)
  | [] => [(k, 1)]
  | (l, n) :: counts => if k = l then (l, n + 1) :: counts else (l, n) :: countKind k counts

/-- How often each kind occurs, for those that do. -/
def kindCounts (m : Model H) : List (Kind × Nat) :=
  m.walk (fun m counts => (true, countKind m.kind counts)) []

end Model

end TypeGraph
