import TypeGraph.Proofs.Model.Addresses
import TypeGraph.Proofs.Shape
import Mathlib.Algebra.GroupWithZero.Nat

/-!
# What a walk visits

A walk is a loop over a stack of models. `Model.walkLoop` is that loop with its stack and its buffer
of children in arrays; it does what the recursion does (`walkLoop_eq`).

`Model.visits` lists the visits of the recursion, each with its address and what the visitor said.
The addresses increase, and a model is visited just if the visitor went on at every model above it
(`inPreorder_visits`). A visitor that notes its visits shows that these are the visits of the walk
(`traverse_noting`).
-/

namespace TypeGraph

universe u v

namespace Model

variable {H : Type u} {σ : Type v}

/-! ## The loop -/

theorem sizeAll_eq_sum (ms : List (Model H)) : sizeAll ms = (ms.map size).sum := by
  induction ms with
  | nil => rfl
  | cons m ms ih => rw [sizeAll_cons, ih, List.map_cons, List.sum_cons]

theorem sizeAll_reverse (ms : List (Model H)) : sizeAll ms.reverse = sizeAll ms := by
  rw [sizeAll_eq_sum, sizeAll_eq_sum, List.map_reverse, List.sum_reverse]

/-- The loop of a walk with its stack in an array, whose last model comes next. The children of a
visited model go into a buffer, which is then emptied onto the stack from its end. -/
def walkLoop (visit : Model H → σ → Bool × σ) (stack buffer : Array (Model H)) (st : σ) : σ :=
  match _ : stack.back? with
  | none => st
  | some m =>
    match visit m st with
    | (true, st) =>
      walkLoop visit (stack.pop ++ (m.children.foldl Array.push buffer).reverse) #[] st
    | (false, st) => walkLoop visit stack.pop buffer st
  termination_by sizeAll stack.toList + sizeAll buffer.toList
  decreasing_by
    all_goals
      obtain ⟨rest, rfl⟩ := Array.back?_eq_some_iff.mp ‹_›
      have hnil : sizeAll ([] : List (Model H)) = 0 := rfl
      simp only [Array.pop_push, Array.toList_push, Array.toList_append, Array.toList_reverse,
        List.foldl_push_eq_append', sizeAll_append, sizeAll_reverse, sizeAll_cons, size_eq m]
      omega

theorem walkLoop_empty (visit : Model H → σ → Bool × σ) (buffer : Array (Model H)) (st : σ) :
    walkLoop visit #[] buffer st = st := by
  rw [walkLoop]
  rfl

theorem walkLoop_push (visit : Model H → σ → Bool × σ) (rest buffer : Array (Model H))
    (m : Model H) (st : σ) :
    walkLoop visit (rest.push m) buffer st =
      match visit m st with
      | (true, st) => walkLoop visit (rest ++ (m.children.foldl Array.push buffer).reverse) #[] st
      | (false, st) => walkLoop visit rest buffer st := by
  rw [walkLoop]
  split
  next h => simp at h
  next m' h =>
    obtain rfl : m = m' := by simpa using h
    rw [Array.pop_push]

theorem reverse_toList_push (rest : Array (Model H)) (m : Model H) :
    (rest.push m).toList.reverse = m :: rest.toList.reverse := by
  simp

/-- The loop does what the recursion over a list of models does. -/
theorem walkLoop_eq (visit : Model H → σ → Bool × σ) (stack : Array (Model H)) (st : σ) :
    walkLoop visit stack #[] st = walkAll visit stack.toList.reverse st := by
  -- between two rounds the buffer is empty
  generalize hb : (#[] : Array (Model H)) = buffer
  induction stack, buffer, st using walkLoop.induct visit with
  | case1 stack buffer st h =>
    rw [Array.back?_eq_none_iff.mp h, walkLoop_empty]
    simp [walkAll]
  | case2 stack buffer st m h st' hv ih =>
    obtain ⟨rest, rfl⟩ := Array.back?_eq_some_iff.mp h
    rw [Array.pop_push] at ih
    rw [walkLoop_push, reverse_toList_push, walkAll, hv]
    dsimp only
    rw [ih rfl, ← hb]
    simp
  | case3 stack buffer st m h st' hv ih =>
    obtain ⟨rest, rfl⟩ := Array.back?_eq_some_iff.mp h
    rw [Array.pop_push] at ih
    rw [walkLoop_push, reverse_toList_push, walkAll, hv]
    exact ih hb

/-! ## The visits -/

/-- The visits of a traversal: the addresses of the visited models, the models, and whether the
visitor went on there. -/
def visits (visit : Model H → σ → Bool × σ) :
    Model H → σ → List (List ℕ × Model H × Bool) × σ :=
  fold fun m runs st =>
    match visit m st with
    | (true, st) =>
      let (below, st) := mapAccum (fun run st => run st) runs.children st
      (([], m, true) :: numbered below, st)
    | (false, st) => ([([], m, false)], st)

theorem visits_eq (visit : Model H → σ → Bool × σ) (m : Model H) (st : σ) :
    m.visits visit st =
      match visit m st with
      | (true, st) =>
        let (below, st) := mapAccum (visits visit) m.children st
        (([], m, true) :: numbered below, st)
      | (false, st) => ([([], m, false)], st) := by
  rw [visits, fold_eq, Shape.children_map]
  simp only [mapAccum_map]
  rfl

/-! ## Visits in preorder -/

/-- The visits are in preorder: their addresses increase, each leads to its model, and the visited
models are those above which the visitor always went on. -/
structure InPreorder (m : Model H) (visits : List (List ℕ × Model H × Bool)) : Prop where
  sorted : (visits.map (·.1)).Pairwise (· < ·)
  model : ∀ v ∈ visits, m.get? v.1 = some v.2.1
  visited_iff : ∀ a, a ∈ visits.map (·.1) ↔
    (m.get? a).isSome ∧ ∀ b, b <+: a → b ≠ a → ∃ x, (b, x, true) ∈ visits

/-- Above a child there are the root and what is above the child in its own tree. -/
theorem forall_above_cons {P : List ℕ → Prop} {i : ℕ} {a : List ℕ} :
    (∀ b, b <+: i :: a → b ≠ i :: a → P b) ↔ P [] ∧ ∀ b, b <+: a → b ≠ a → P (i :: b) := by
  constructor
  · intro h
    exact ⟨h [] List.nil_prefix (List.cons_ne_nil i a).symm, fun b hb hne =>
      h (i :: b) (List.cons_prefix_cons.mpr ⟨rfl, hb⟩) fun he => hne (List.cons.inj he).2⟩
  · rintro ⟨root, below⟩ (_ | ⟨j, b⟩) hb hne
    · exact root
    · obtain ⟨rfl, hb'⟩ := List.cons_prefix_cons.mp hb
      exact below b hb' fun he => hne (congrArg _ he)

theorem InPreorder.leaf (m : Model H) : m.InPreorder [([], m, false)] where
  sorted := List.pairwise_singleton ..
  model := by simp
  visited_iff
    | [] => by simp
    | i :: a => by
      rw [forall_above_cons]
      simp

theorem InPreorder.node {m : Model H} {runs : List (List (List ℕ × Model H × Bool))}
    (h : ∀ i : ℕ, Option.Rel InPreorder m.children[i]? runs[i]?) :
    m.InPreorder (([], m, true) :: numbered runs) := by
  have child {i : ℕ} {vs} (hvs : runs[i]? = some vs) :
      ∃ c, m.children[i]? = some c ∧ InPreorder c vs := by
    have hi := h i
    rw [hvs] at hi
    generalize m.children[i]? = c at hi
    cases hi with
    | some hi => exact ⟨_, rfl, hi⟩
  -- an address is that of the root or leads on from a child
  refine ⟨?sorted, ?model, ?visited_iff⟩
  case sorted =>
    rw [List.map_cons, List.pairwise_cons]
    constructor
    · rintro (_ | ⟨i, a⟩) ha
      · obtain ⟨⟨_, b⟩, hb, rfl⟩ := List.mem_map.mp ha
        exact absurd hb nil_notMem_numbered
      · exact List.nil_lt_cons ..
    · refine pairwise_numbered cons_lt_cons cons_lt_cons_of_lt fun vs hvs => ?_
      obtain ⟨i, hi⟩ := List.mem_iff_getElem?.mp hvs
      obtain ⟨c, -, hc⟩ := child hi
      exact hc.sorted
  case model =>
    rw [List.forall_mem_cons]
    refine ⟨rfl, ?_⟩
    rintro ⟨_ | ⟨i, a⟩, x, b⟩ hv
    · exact absurd hv nil_notMem_numbered
    · obtain ⟨vs, hvs, hv⟩ := cons_mem_numbered.mp hv
      obtain ⟨c, hi, hc⟩ := child hvs
      rw [get?_cons, hi]
      exact hc.model _ hv
  case visited_iff =>
    rintro (_ | ⟨i, a⟩)
    · simp
    · have hi := h i
      rw [forall_above_cons, List.map_cons, List.mem_cons, cons_mem_map_fst_numbered, get?_cons]
      simp only [List.mem_cons, Prod.mk.injEq, reduceCtorEq, false_and, false_or,
        cons_mem_numbered]
      generalize m.children[i]? = c, runs[i]? = vs at hi ⊢
      cases hi with
      | none => simp
      | some hc => simp [-List.mem_map, hc.visited_iff]

theorem inPreorder_visits (visit : Model H → σ → Bool × σ) (m : Model H) (st : σ) :
    m.InPreorder (m.visits visit st).1 := by
  induction m using Model.induction generalizing st with
  | mk s o ih =>
    rw [visits_eq]
    rcases visit ⟨s, o⟩ st with ⟨_ | _, st⟩
    · exact .leaf _
    · exact .node (rel_mapAccum (fun c hc st => ih c hc st) st)

/-- The visits leave the visitor in the state that the traversal leaves it in. -/
theorem state_visits (visit : Model H → σ → Bool × σ) (m : Model H) (st : σ) :
    (m.visits visit st).2 = m.traverse visit st := by
  induction m using Model.induction generalizing st with
  | mk s o ih =>
    rw [visits_eq, traverse_eq]
    rcases visit ⟨s, o⟩ st with ⟨_ | _, st⟩
    · rfl
    · exact (state_mapAccum_eq_foldl ..).trans
        (List.foldl_ext _ _ _ fun st c hc => ih c hc st)

/-- A visitor that notes its visits notes these. -/
theorem traverse_noting (visit : Model H → σ → Bool × σ) (m : Model H) (st : σ)
    (log : List (Model H × Bool)) :
    m.traverse (noting visit) (st, log) =
      ((m.visits visit st).2, log ++ (m.visits visit st).1.map (·.2)) := by
  induction m using Model.induction generalizing st log with
  | mk s o ih =>
    rw [visits_eq, traverse_eq, noting]
    rcases visit ⟨s, o⟩ st with ⟨_ | _, st⟩
    · rfl
    · refine (foldl_log (fun c hc st log => ih c hc st log) st _).trans ?_
      rw [List.map_cons, map_snd_numbered, List.append_assoc]
      rfl

/-- A walk is the traversal in preorder, for every visitor: it ends in the state in which the loop
and the recursion end, and what a visitor notes are the visits, in their order, of just the models
above which it always went on. So a node count is one more than those of the children together, and
a search for a kind finds it wherever it is. -/
theorem walk_in_preorder (m : Model H) :
    (∀ {σ : Type v} (visit : Model H → σ → Bool × σ) (st : σ),
      walkLoop visit #[m] #[] st = m.walk visit st ∧
      (m.walk visit st = match visit m st with
        | (true, st) => m.children.foldl (fun st c => c.walk visit st) st
        | (false, st) => st) ∧
      (m.walk (noting visit) (st, [])).1 = m.walk visit st ∧
      ∃ visits, m.InPreorder visits ∧ (m.walk (noting visit) (st, [])).2 = visits.map (·.2)) ∧
    m.nodeCount = 1 + (m.children.map nodeCount).sum ∧
    ∀ k, m.containsKind k = true ↔ ∃ a x, m.get? a = some x ∧ x.kind = k := by
  refine ⟨fun visit st => ⟨walkLoop_eq visit #[m] st, ?recursion, ?state, ?visits⟩, ?count, ?found⟩
  case recursion =>
    simp only [walk_eq_traverse]
    exact traverse_eq visit m st
  case state => rw [walk_eq_traverse, walk_eq_traverse, traverse_noting, state_visits]
  case visits =>
    refine ⟨(m.visits visit st).1, inPreorder_visits visit m st, ?_⟩
    rw [walk_eq_traverse, traverse_noting, List.nil_append]
  case count =>
    rw [nodeCount_eq, size_eq, sizeAll_eq_sum, Nat.add_comm, funext nodeCount_eq]
  case found =>
    intro k
    simp only [containsKind_iff, mem_preorder_iff]
    exact ⟨fun ⟨x, ⟨a, ha⟩, hx⟩ => ⟨a, x, ha, hx⟩, fun ⟨a, x, ha, hx⟩ => ⟨x, ⟨a, ha⟩, hx⟩⟩

end Model

end TypeGraph
