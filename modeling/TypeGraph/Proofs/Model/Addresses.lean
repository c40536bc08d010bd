import TypeGraph.Proofs.Model.Walk

/-!
# Addresses in a model

An address leads from a model to one nested in it: it lists the numbers of the children to go down
to. Unlike the model it leads to, it tells equal models at different places apart. In the
lexicographic order of addresses parents come before children, and children in their order.

* `Model.get?` looks up the model at an address;
* `mem_preorder_iff`: the models of a walk are those that have an address;
* `get?_of_children`: what is done to every model of a tree is done at every address;
* `numbered` makes one list of those for the children (`cons_mem_numbered`, `pairwise_numbered`).
-/

namespace TypeGraph

universe u v w

namespace Model

variable {H : Type u} {G : Type v}

/-- The model at an address. -/
def get? : Model H → List ℕ → Option (Model H)
  | m, [] => some m
  | m, i :: a => m.children[i]?.bind fun c => c.get? a

@[simp] theorem get?_nil (m : Model H) : m.get? [] = some m := rfl

theorem get?_cons (m : Model H) (i : ℕ) (a : List ℕ) :
    m.get? (i :: a) = m.children[i]?.bind fun c => c.get? a := rfl

/-- The models of a walk are those that have an address. -/
theorem mem_preorder_iff {m x : Model H} : x ∈ m.preorder ↔ ∃ a, m.get? a = some x := by
  induction m using Model.induction with
  | mk s o ih =>
    rw [preorder_eq, List.mem_cons, List.mem_flatMap]
    constructor
    · rintro (rfl | ⟨c, hc, hx⟩)
      · exact ⟨[], rfl⟩
      · obtain ⟨i, hi⟩ := List.mem_iff_getElem?.mp hc
        obtain ⟨a, ha⟩ := (ih c hc).mp hx
        exact ⟨i :: a, by rw [get?_cons, hi, Option.bind_some, ha]⟩
    · rintro ⟨_ | ⟨i, a⟩, ha⟩
      · exact .inl (Option.some.inj ha).symm
      · rw [get?_cons, Option.bind_eq_some_iff] at ha
        obtain ⟨c, hi, ha⟩ := ha
        have hc : c ∈ s.children := List.mem_of_getElem? hi
        exact .inr ⟨c, hc, (ih c hc).mpr ⟨a, ha⟩⟩

/-- What is done to every model of a tree is done at every address. -/
theorem get?_of_children {f : Model H → Model G} (hf : ∀ m, (f m).children = m.children.map f)
    (m : Model H) (a : List ℕ) : (f m).get? a = (m.get? a).map f := by
  induction a generalizing m with
  | nil => rfl
  | cons i a ih =>
    rw [get?_cons, get?_cons, hf, List.getElem?_map]
    cases m.children[i]? with
    | none => rfl
    | some c => exact ih c

/-! ## Lists that carry addresses -/

section numbered

variable {β : Type v} {runs : List (List (List ℕ × β))} {i : ℕ} {a : List ℕ} {b : β}

/-- Entries of several lists, each put under the number of its list. -/
def numbered (runs : List (List (List ℕ × β))) : List (List ℕ × β) :=
  runs.zipIdx.flatMap fun (vs, i) => vs.map fun v => (i :: v.1, v.2)

theorem nil_notMem_numbered : ([], b) ∉ numbered runs := by
  simp [numbered]

theorem cons_mem_numbered :
    (i :: a, b) ∈ numbered runs ↔ ∃ vs, runs[i]? = some vs ∧ (a, b) ∈ vs := by
  simp [numbered, List.mem_flatMap, List.mem_zipIdx_iff_getElem?]

theorem cons_mem_map_fst_numbered :
    i :: a ∈ (numbered runs).map (·.1) ↔ ∃ vs, runs[i]? = some vs ∧ a ∈ vs.map (·.1) := by
  simp only [List.mem_map, Prod.exists, exists_and_right, exists_eq_right, cons_mem_numbered]
  exact ⟨fun ⟨b, vs, hvs, hb⟩ => ⟨vs, hvs, b, hb⟩, fun ⟨vs, hvs, b, hb⟩ => ⟨b, vs, hvs, hb⟩⟩

/-- An order of addresses that goes by the numbers first orders the whole list if it orders each
of the lists. -/
theorem pairwise_numbered {R : List ℕ → List ℕ → Prop}
    (cons : ∀ {i a b}, R a b → R (i :: a) (i :: b))
    (cons_of_lt : ∀ {i j a b}, i < j → R (i :: a) (j :: b))
    (h : ∀ vs ∈ runs, (vs.map (·.1)).Pairwise R) : ((numbered runs).map (·.1)).Pairwise R := by
  have numbers : runs.zipIdx.Pairwise fun p q => p.2 < q.2 :=
    List.pairwise_map.mp (by rw [List.zipIdx_map_snd]; exact List.pairwise_lt_range')
  rw [numbered, List.map_flatMap, List.pairwise_flatMap]
  constructor
  · rintro ⟨vs, i⟩ hvs
    have hvs := h vs (List.fst_mem_of_mem_zipIdx hvs)
    rw [List.map_map]
    rw [List.pairwise_map] at hvs ⊢
    exact hvs.imp cons
  · refine numbers.imp ?_
    rintro ⟨vs, i⟩ ⟨ws, j⟩ (hij : i < j) a ha b hb
    simp only [List.map_map, List.mem_map, Function.comp_apply] at ha hb
    obtain ⟨v, -, rfl⟩ := ha
    obtain ⟨w, -, rfl⟩ := hb
    exact cons_of_lt hij

theorem map_snd_numbered (runs : List (List (List ℕ × β))) :
    (numbered runs).map (·.2) = runs.flatMap (·.map (·.2)) := by
  rw [numbered, List.map_flatMap]
  simp only [List.map_map, Function.comp_def]
  rw [← List.flatMap_map (f := Prod.fst), List.zipIdx_map_fst]

theorem filterMap_snd_numbered {γ : Type w} (f : β → Option γ) (runs : List (List (List ℕ × β))) :
    (numbered runs).filterMap (fun v => f v.2) = runs.flatMap (·.filterMap fun v => f v.2) := by
  have snd (vs : List (List ℕ × β)) :
      vs.filterMap (fun v => f v.2) = (vs.map (·.2)).filterMap f := List.filterMap_map.symm
  simp only [snd, map_snd_numbered, List.filterMap_flatMap]

end numbered

theorem cons_lt_cons {i : ℕ} {a b : List ℕ} (h : a < b) : i :: a < i :: b :=
  List.cons_lt_cons_iff.mpr (.inr ⟨rfl, h⟩)

theorem cons_lt_cons_of_lt {i j : ℕ} {a b : List ℕ} (h : i < j) : i :: a < j :: b :=
  List.cons_lt_cons_iff.mpr (.inl h)

end Model

end TypeGraph
