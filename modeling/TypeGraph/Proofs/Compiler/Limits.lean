import TypeGraph.Proofs.Compiler.Unfolding
import TypeGraph.Proofs.Engine

/-!
# Compilations within the limits

A type has at most one model that no limit cuts short (`Unfolds`, `Unfolds.unique`); types that nest
forever have none. A compilation makes it and meets no limit exactly if the budget allows all of its
models and the depth limit all of its levels (`compile_within_limits_iff`).
-/

namespace TypeGraph

universe u v

variable {H : Type u} {S : Type v}

/-- The model of a type below a path, with no limits: a handle on the path gives a `recursive`
leaf, and the layer of any other has the models of the nested types in it. -/
inductive Unfolds (e : Engine H S) (recordOrigin : Bool) : Option (List H) → H → Model H → Prop
  | revisit {path : Option (List H)} {h : H} (hp : h ∈ path.getD []) :
      Unfolds e recordOrigin path h (leafOf recordOrigin h .recursive)
  | enter {path : Option (List H)} {h : H} {m : Model H} (hp : h ∉ path.getD [])
      (form : m.shape.form = (e.classify h).form)
      (children : ∀ p ∈ (e.classify h).children.zip m.children,
        Unfolds e recordOrigin (path.map (h :: ·)) p.1 p.2)
      (origin : m.origin = originOf recordOrigin h) : Unfolds e recordOrigin path h m

section

variable [DecidableEq H] {e : Engine H S} {recordOrigin : Bool} {path : Option (List H)} {h : H}
  {m : Model H}

/-- A model without limits is the unfolding to any depth that it does not exceed. -/
theorem Unfolds.unfoldTo_eq (hm : Unfolds e recordOrigin path h m) {room : ℕ}
    (hx : ¬ m.Exceeds room) : e.unfoldTo recordOrigin room path h = m := by
  induction hm generalizing room with
  | revisit hp => exact e.unfoldTo_of_mem recordOrigin hp
  | @enter path h m hp form _ origin ih =>
    cases room with
    | zero =>
      have hk : m.kind = (e.classify h).kind := Shape.kind_eq form
      rw [Model.exceeds_zero, not_not, hk] at hx
      exact absurd hx (e.kind_classify_ne h)
    | succ room =>
      rw [Model.exceeds_succ, not_exists] at hx
      rw [e.unfoldTo_succ recordOrigin hp]
      refine Model.eq_of_form_children (by rw [Shape.form_map, form]) ?_ origin.symm
      rw [Model.children, Shape.children_map]
      refine map_eq_of_zip (Shape.length_children form.symm) fun p hc => ih p hc fun hxc => ?_
      exact hx p.2 ⟨(List.of_mem_zip hc).2, hxc⟩

/-- A type has at most one model without limits. -/
theorem Unfolds.unique {m' : Model H} (hm : Unfolds e recordOrigin path h m)
    (hm' : Unfolds e recordOrigin path h m') : m = m' := by
  have room {m₁ : Model H} (hl : m₁.size ≤ max m.size m'.size) :
      ¬ m₁.Exceeds (max m.size m'.size) := fun hx => m₁.not_exceeds_size (hx.mono hl)
  exact (hm.unfoldTo_eq (room (le_max_left ..))).symm.trans
    (hm'.unfoldTo_eq (room (le_max_right ..)))

/-- An unfolding that does not exceed its depth is the model without limits. -/
theorem unfolds_unfoldTo {room : ℕ} (hx : ¬ (e.unfoldTo recordOrigin room path h).Exceeds room) :
    Unfolds e recordOrigin path h (e.unfoldTo recordOrigin room path h) := by
  induction room generalizing path h with
  | zero =>
    by_cases hp : h ∈ path.getD []
    · rw [e.unfoldTo_of_mem recordOrigin hp]
      exact .revisit hp
    · rw [e.unfoldTo_zero recordOrigin hp, Model.exceeds_zero] at hx
      exact absurd (Model.kind_ne_of_unidentified rfl) hx
  | succ room ih =>
    by_cases hp : h ∈ path.getD []
    · rw [e.unfoldTo_of_mem recordOrigin hp]
      exact .revisit hp
    · rw [e.unfoldTo_succ recordOrigin hp, Model.exceeds_succ, Model.children,
        Shape.children_map] at hx
      rw [e.unfoldTo_succ recordOrigin hp]
      refine .enter hp (Shape.form_map ..) ?_ rfl
      rw [Model.children, Shape.children_map]
      refine forall_mem_zip_map fun c hc => ih fun hxc => hx ⟨_, ?_, hxc⟩
      exact List.mem_map_of_mem hc

/-! ## Compilations -/

theorem budget_of_lt {o : Options} (hn : o.limits.maxNodes < maxWord) :
    o.budget = o.limits.maxNodes.toNat := if_neg (UInt32.ne_of_lt hn)

/-- A call returns a model and meets no limit exactly if it is the model without limits, with no
more models than the budget and no more levels, but for `recursive` leaves, than the depth limit
allows. -/
theorem compile_within_limits_iff (o : Options) (e : Engine H S) (h : H) (m : Model H)
    (hn : o.limits.maxNodes < maxWord) :
    o.compile e h = (m, false) ↔
      Unfolds e o.recordOrigin o.path h m ∧ m.nodeCount ≤ o.limits.maxNodes.toNat ∧
        ∀ p ∈ m.places, p.model.kind ≠ .atom .recursive → p.level ≤ o.depthLimit := by
  have hd : (∀ p ∈ m.places, p.model.kind ≠ .atom .recursive → p.level ≤ o.depthLimit) ↔
      ¬ m.Exceeds o.depthLimit := by
    simp only [Model.Exceeds, not_exists, not_and, not_lt]
  have hb : m.nodeCount ≤ o.limits.maxNodes.toNat ↔ ¬ o.budget < m.size := by
    rw [budget_of_lt hn, not_lt, Nat.cast_le, Model.nodeCount_eq]
  rw [hd, hb, Prod.ext_iff, ← Bool.not_eq_true, o.limitExceeded_iff e h]
  constructor
  · rintro ⟨rfl, hf⟩
    rw [not_or] at hf
    refine ⟨?_, hf⟩
    -- the budget cut nothing, so that the model is the unfolding to the depth limit
    have hs := hf.1
    rw [o.compile_model e h, Model.lt_size_keepFirst_iff, not_lt] at hs
    have hm := o.compile_model e h
    rw [Model.keepFirst_of_le hs] at hm
    rw [hm] at hf ⊢
    exact unfolds_unfoldTo hf.2
  · rintro ⟨hu, hs, hx⟩
    have hm : (o.compile e h).1 = m := by
      rw [o.compile_model e h, hu.unfoldTo_eq hx, Model.keepFirst_of_le (not_lt.mp hs)]
    refine ⟨hm, ?_⟩
    rw [hm, not_or]
    exact ⟨hs, hx⟩

end

theorem compile_within_limits_selfUnion :
    Options.compile ⟨.detect, true, some 2, some 3⟩ Engine.selfUnion true =
        (Engine.selfUnionModel, false) ∧
      Unfolds Engine.selfUnion true (some []) true Engine.selfUnionModel ∧
        Engine.selfUnionModel.nodeCount ≤ 3 ∧
        ∀ p ∈ Engine.selfUnionModel.places, p.model.kind ≠ .atom .recursive → p.level ≤ 2 :=
  ⟨rfl, (compile_within_limits_iff ⟨.detect, true, some 2, some 3⟩ Engine.selfUnion true _
    (by decide)).mp rfl⟩

end TypeGraph
