import TypeGraph.Proofs.Model.KeepFirst

/-!
# Models with more below some leaves

A leaf may stand for a model that was not made. `Model.Expands a m m'` says that `m'` is `m` with
any models of the same origin in the place of some of its leaves of the kind `a`.

* `keepFirst_expands`: what was refused is below `unidentified` leaves;
* `cut_eq_of_expands`: where no leaf that may be expanded was kept, as much is kept of both models.
-/

namespace TypeGraph

universe u

variable {H : Type u}

namespace Model

/-- One model is another but for some of its leaves of one kind. -/
inductive Expands (a : Atom) : Model H → Model H → Prop
  | leaf (m : Model H) : Expands a ⟨.atom a, m.origin⟩ m
  | layer {m m' : Model H} (form : m.shape.form = m'.shape.form)
      (children : ∀ p ∈ m.children.zip m'.children, Expands a p.1 p.2)
      (origin : m.origin = m'.origin) : Expands a m m'

theorem Expands.refl (a : Atom) (m : Model H) : Expands a m m := by
  induction m using Model.induction with
  | mk s o ih =>
    refine .layer rfl ?_ rfl
    have h := forall_mem_zip_map (f := id) (P := fun p => Expands a p.1 p.2) ih
    rwa [List.map_id] at h

/-- What was refused is below `unidentified` leaves. -/
theorem keepFirst_expands (n : ℕ∞) (m : Model H) : Expands .unidentified (m.keepFirst n) m := by
  refine (forest_induction (P := fun m => ∀ n : ℕ∞, Expands .unidentified (m.keepFirst n) m)
    (Q := fun ms => ∀ n : ℕ∞, ∀ p ∈ (keepFirstAll n ms).zip ms, Expands .unidentified p.1 p.2)
    ?layer ?nil ?cons).1 m n
  case layer =>
    intro m ih n
    by_cases h0 : n = 0
    · rw [h0, keepFirst_zero]
      exact .leaf m
    · refine .layer (form_keepFirst h0 m) ?_ (origin_keepFirst n m)
      rw [children_keepFirst h0]
      exact ih _
  case nil => exact fun n p hp => absurd hp List.not_mem_nil
  case cons =>
    intro m ms hm hms n p hp
    rw [keepFirstAll_cons, List.zip_cons_cons, List.mem_cons] at hp
    obtain rfl | hp := hp
    · exact hm n
    · exact hms _ p hp

theorem cutAll_eq {k : Kind} {cs cs' : List (Model H)} (hl : cs.length = cs'.length)
    (ih : ∀ p ∈ cs.zip cs', ∀ n, (p.1.keepFirst n).containsKind k = false →
      p.1.cut n = p.2.cut n) {n : ℕ∞}
    (hk : ∀ c ∈ keepFirstAll n cs, c.containsKind k = false) :
    mapAccum cut cs n = mapAccum cut cs' n := by
  induction cs generalizing cs' n with
  | nil => rw [List.length_eq_zero_iff.mp hl.symm]
  | cons c cs ihs =>
    obtain _ | ⟨c', cs'⟩ := cs'
    · exact absurd hl (Nat.succ_ne_zero _)
    rw [keepFirstAll_cons, List.forall_mem_cons, ← state_cut] at hk
    rw [List.zip_cons_cons, List.forall_mem_cons] at ih
    have hc := ih.1 n hk.1
    rw [mapAccum_cons, mapAccum_cons, hc, ← ihs (Nat.succ.inj hl) ih.2 (hc ▸ hk.2)]

/-- Where no leaf that may be expanded was kept, as much is kept of both models. -/
theorem cut_eq_of_expands {a : Atom} {m m' : Model H} (h : Expands a m m') {n : ℕ∞}
    (hk : (m.keepFirst n).containsKind (.atom a) = false) : m.cut n = m'.cut n := by
  induction h generalizing n with
  | leaf m =>
    by_cases h0 : n = 0
    · rw [cut_eq, cut_eq, if_pos h0, if_pos h0]
      rfl
    · -- the leaf itself was kept
      rw [keepFirst_of_ne_zero h0, containsKind_eq_false_iff] at hk
      exact absurd rfl hk.1
  | @layer m m' form _ origin ih =>
    by_cases h0 : n = 0
    · rw [cut_eq, cut_eq, if_pos h0, if_pos h0, refused, refused, origin]
    · rw [containsKind_eq_false_iff, children_keepFirst h0] at hk
      have hc := cutAll_eq (Shape.length_children form) ih hk.2
      rw [cut_eq, cut_eq, if_neg h0, if_neg h0, origin, Shape.state_mapAccum, Shape.state_mapAccum,
        Shape.mapAccum_eq form (congrArg Prod.fst hc)]
      exact congrArg _ (congrArg Prod.snd hc)

end Model

end TypeGraph
