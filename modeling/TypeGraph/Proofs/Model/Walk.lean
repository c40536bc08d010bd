import TypeGraph.Model.Traversal
import Mathlib.Data.List.Basic

/-!
# Walks as recursion

A walk keeps a stack of its own. `Model.traverse` is the traversal by recursion: a model, then,
unless the visitor skips them, its children from left to right. The two do the same
(`walk_eq_traverse`), which gives what a walk computes from the list of all models, parents first
(`preorder_eq`):

* `traverse_of_true`: a visitor that skips nothing sees that list;
* `nodeCount_eq`: the node count is its length, and the size of the tree;
* `kinds_eq`: the kinds met are those of its models;
* `containsKind_iff`: a kind is contained if a model of the list has it.
-/

namespace TypeGraph

universe u v

namespace Model

variable {H : Type u} {σ : Type v}

/-- What passes from the children to the parent, and from models to lists of them, holds of all
models and of all lists. -/
theorem forest_induction {P : Model H → Prop} {Q : List (Model H) → Prop}
    (layer : ∀ m : Model H, Q m.children → P m) (nil : Q [])
    (cons : ∀ m ms, P m → Q ms → Q (m :: ms)) : (∀ m, P m) ∧ ∀ ms, Q ms := by
  have list : ∀ ms : List (Model H), (∀ m ∈ ms, P m) → Q ms := by
    intro ms h
    induction ms with
    | nil => exact nil
    | cons m ms ih =>
      exact cons m ms (h m (List.mem_cons_self ..)) (ih fun c hc => h c (List.mem_cons_of_mem _ hc))
  have all : ∀ m, P m := Model.induction fun s o ih => layer ⟨s, o⟩ (list _ ih)
  exact ⟨all, fun ms => list ms fun m _ => all m⟩

/-! ## Walks -/

/-- Visits a model and, where the visitor says `true`, traverses its children from left to
right. -/
def traverse (visit : Model H → σ → Bool × σ) : Model H → σ → σ :=
  fold fun m runs st =>
    match visit m st with
    | (true, st) => runs.children.foldl (fun st run => run st) st
    | (false, st) => st

theorem traverse_eq (visit : Model H → σ → Bool × σ) (m : Model H) (st : σ) :
    m.traverse visit st =
      match visit m st with
      | (true, st) => m.children.foldl (fun st c => c.traverse visit st) st
      | (false, st) => st := by
  rw [traverse, fold_eq, Shape.children_map]
  simp only [List.foldl_map]
  rfl

/-- A stack of models is visited like the models in turn. -/
theorem walkAll_eq_foldl (visit : Model H → σ → Bool × σ) (stack : List (Model H)) (st : σ) :
    walkAll visit stack st = stack.foldl (fun st m => m.traverse visit st) st := by
  induction stack, st using walkAll.induct visit with
  | case1 st => rw [walkAll]; rfl
  | case2 st m stack st' hv ih =>
    rw [walkAll, hv]
    simp only [ih, List.foldl_append, List.foldl_cons]
    rw [traverse_eq, hv]
  | case3 st m stack st' hv ih =>
    rw [walkAll, hv]
    simp only [ih, List.foldl_cons]
    rw [traverse_eq, hv]

theorem walk_eq_traverse (visit : Model H → σ → Bool × σ) (m : Model H) (st : σ) :
    m.walk visit st = m.traverse visit st := walkAll_eq_foldl visit [m] st

/-! ## The list of all models -/

theorem preorder_eq (m : Model H) : m.preorder = m :: m.children.flatMap preorder := by
  rw [preorder, fold_eq, Shape.children_map]
  rfl

/-- What is done to every model of a tree is done to every model of the list. -/
theorem preorder_of_children {G : Type v} {f : Model H → Model G}
    (hf : ∀ m, (f m).children = m.children.map f) (m : Model H) :
    (f m).preorder = m.preorder.map f := by
  induction m using Model.induction with
  | mk s o ih =>
    rw [preorder_eq, preorder_eq, hf, List.map_cons, List.flatMap_map, List.map_flatMap]
    exact congrArg _ (List.flatMap_congr ih)

theorem length_preorder (m : Model H) : m.preorder.length = m.size := by
  refine (forest_induction (P := fun m => m.preorder.length = m.size)
    (Q := fun ms => (ms.flatMap preorder).length = sizeAll ms) ?layer ?nil ?cons).1 m
  case layer =>
    intro m ih
    rw [preorder_eq, size_eq, List.length_cons, ih]
  case nil => rfl
  case cons =>
    intro m ms hm hms
    rw [List.flatMap_cons, List.length_append, hm, hms, sizeAll_cons]

/-- A visitor that skips nothing sees every model. -/
theorem traverse_of_true (f : Model H → σ → σ) (m : Model H) (st : σ) :
    m.traverse (fun m st => (true, f m st)) st = m.preorder.foldl (fun st m => f m st) st := by
  induction m using Model.induction generalizing st with
  | mk s o ih =>
    rw [traverse_eq, preorder_eq, List.foldl_cons, List.foldl_flatMap]
    exact List.foldl_ext _ _ _ fun st c hc => ih c hc st

/-- The kinds that a walk meets are those of the models of the list, in its order. -/
theorem kinds_eq (m : Model H) : m.kinds = m.preorder.map kind := by
  have step (k : Kind) : (!([] : List Kind).contains k) = true := rfl
  rw [kinds, kindsSkipping, walk_eq_traverse]
  simp only [step]
  rw [traverse_of_true, List.foldl_flip_cons_eq_append, List.append_nil, List.reverse_reverse]

/-- The node count is the size of the tree. -/
theorem nodeCount_eq (m : Model H) : m.nodeCount = m.size := by
  rw [nodeCount, walk_eq_traverse, traverse_of_true, List.foldl_add_const, length_preorder]
  omega

theorem foldl_or {α : Type u} (p : α → Bool) (as : List α) (b : Bool) :
    as.foldl (fun b a => b || p a) b = (b || as.any p) := by
  induction as generalizing b with
  | nil => exact (Bool.or_false b).symm
  | cons a as ih => rw [List.foldl_cons, ih, List.any_cons, Bool.or_assoc]

/-- A search that stops descending once it has found a kind finds it if one of the models has
it. -/
theorem traverse_found (k : Kind) (m : Model H) (found : Bool) :
    m.traverse (fun m found => (!(found || m.kind = k), found || m.kind = k)) found =
      (found || m.preorder.any (·.kind = k)) := by
  induction m using Model.induction generalizing found with
  | mk s o ih =>
    rw [traverse_eq, preorder_eq, List.any_cons, ← Bool.or_assoc]
    cases found || decide (kind ⟨s, o⟩ = k) with
    | true => rfl
    | false =>
      rw [List.any_flatMap, ← foldl_or]
      exact List.foldl_ext _ _ _ fun found c hc => ih c hc found

/-- A kind is contained if one of the models has it. -/
theorem containsKind_iff (k : Kind) (m : Model H) :
    m.containsKind k = true ↔ ∃ x ∈ m.preorder, x.kind = k := by
  rw [containsKind, walk_eq_traverse, traverse_found, Bool.false_or, List.any_eq_true]
  simp only [decide_eq_true_eq]

/-- A kind is missing if neither the root nor a child has it. -/
theorem containsKind_eq_false_iff {k : Kind} {m : Model H} :
    m.containsKind k = false ↔ m.kind ≠ k ∧ ∀ c ∈ m.children, c.containsKind k = false := by
  simp only [← Bool.not_eq_true, containsKind_iff, not_exists, not_and]
  rw [preorder_eq, List.forall_mem_cons]
  simp only [List.mem_flatMap]
  exact and_congr Iff.rfl ⟨fun h c hc x hx => h x ⟨c, hc, hx⟩, fun h x ⟨c, hc, hx⟩ => h c hc x hx⟩

end Model

end TypeGraph
