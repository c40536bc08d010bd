import TypeGraph.Proofs.Compiler.Places

/-!
# Cycles in a compiled model

Where cycles are looked for and models keep their origins, a model is marked `recursive` exactly if
a model around it has the same origin, unless the budget refused it (`cycles_marked`). So a path
never goes twice through one type, and a type that is met again elsewhere is unfolded again. Where
cycles are not looked for there is no mark (`not_recursive_of_trust`).
-/

namespace TypeGraph

universe u v

/-- A model around a place has the same origin. -/
def Place.Repeats {H : Type u} (p : Place H) : Prop := ∃ a ∈ p.above, a.origin = p.model.origin

variable {H : Type u} {S : Type v}

theorem Place.repeats_iff {p : Place H} {ks : List H} {k : H}
    (ha : p.above.map (·.origin) = ks.map some) (ho : p.model.origin = some k) :
    p.Repeats ↔ k ∈ ks := by
  rw [Repeats, ho, ← List.mem_map, ha, List.mem_map_of_injective (Option.some_injective H)]

variable [DecidableEq H] (o : Options) (e : Engine H S) (h : H)

/-- Where cycles are not looked for nothing is marked. -/
theorem not_recursive_of_trust (ho : o.cyclePolicy = .trust) {p : Place H}
    (hp : p ∈ (o.compile e h).1.places) : p.model.kind ≠ .atom .recursive := by
  have hn (ks : List H) : o.remembered ks = [] := by rw [Options.remembered, ho]
  obtain ⟨i, hi⟩ := List.mem_iff_getElem?.mp hp
  obtain ⟨ks, k, -, -, ⟨hs, -⟩ | ⟨hr, -⟩ | ⟨-, hs, -⟩ | ⟨-, hs⟩⟩ := o.compile_cases e h hi
  · exact Model.kind_ne_of_unidentified hs
  · rw [hn] at hr
    exact absurd hr List.not_mem_nil
  · exact Model.kind_ne_of_unidentified hs
  · exact e.kind_ne_of_map_eq hs

section

variable (hr : o.recordOrigin = true)

include hr

theorem exists_origin {p : Place H} (hp : p ∈ (o.compile e h).1.places) :
    ∃ k, p.model.origin = some k := by
  obtain ⟨i, hi⟩ := List.mem_iff_getElem?.mp hp
  obtain ⟨-, k, -, hk, -⟩ := o.compile_cases e h hi
  rw [hr] at hk
  exact ⟨k, hk⟩

variable (ho : o.cyclePolicy = .detect)

include ho

/-- What shows at a place where cycles are looked for. -/
theorem detect_cases {i : ℕ} {p : Place H} (hp : (o.compile e h).1.places[i]? = some p) :
    p.model.shape = .atom .unidentified ∧ o.limits.maxNodes.toNat < i + 1 ∧
        (o.compile e h).2 = true ∨
      p.Repeats ∧ p.model.shape = .atom .recursive ∨
      ¬ p.Repeats ∧ p.model.shape = .atom .unidentified ∧ o.depthLimit < p.level ∧
        (o.compile e h).2 = true ∨
      ¬ p.Repeats ∧ ∃ k, p.model.origin = some k ∧
        p.model.shape.map (·.origin) = (e.classify k).map some := by
  obtain ⟨ks, k, ha, hk, hc⟩ := o.compile_cases e h hp
  have hn : o.remembered ks = ks := by rw [Options.remembered, ho]
  rw [hr] at ha hk hc
  rw [hn, ← Place.repeats_iff ha hk] at hc
  obtain hc | hc | hc | ⟨hrep, hs⟩ := hc
  · exact .inl hc
  · exact .inr (.inl hc)
  · exact .inr (.inr (.inl hc))
  · exact .inr (.inr (.inr ⟨hrep, k, hk, hs⟩))

/-- A model with its origin around it is a leaf. -/
theorem shape_of_repeats {p : Place H} (hp : p ∈ (o.compile e h).1.places) (hrep : p.Repeats) :
    ∃ a, p.model.shape = .atom a := by
  obtain ⟨i, hi⟩ := List.mem_iff_getElem?.mp hp
  obtain ⟨hs, -⟩ | ⟨-, hs⟩ | ⟨hn, -⟩ | ⟨hn, -⟩ := detect_cases o e h hr ho hi
  · exact ⟨_, hs⟩
  · exact ⟨_, hs⟩
  · exact absurd hrep hn
  · exact absurd hrep hn

/-- Along a path the models with children have different origins. -/
theorem nodup_above {p : Place H} (hp : p ∈ (o.compile e h).1.places) :
    (p.above.map (·.origin)).Nodup := by
  obtain ⟨as, x⟩ := p
  induction as generalizing x with
  | nil => exact List.nodup_nil
  | cons a as ih =>
    obtain ⟨ha, hx⟩ := Model.mem_places_above hp
    refine List.nodup_cons.mpr ⟨fun hm => ?_, ih a ha⟩
    -- a repeated origin would make this model a leaf
    obtain ⟨l, hl⟩ := shape_of_repeats o e h hr ho ha (List.mem_map.mp hm)
    rw [Model.children, hl] at hx
    exact absurd hx List.not_mem_nil

end

/-- Where origins are kept and cycles looked for: a `recursive` model is a leaf with its origin
around it. A model with its origin around it is `recursive` unless the budget refused it, so that
origins on a path differ as long as models have children. A model without its origin around it has
the layer that the rules give, unless a limit refused it. Where cycles are not looked for, no model
is `recursive`. -/
theorem cycles_marked (hr : o.recordOrigin = true) {m : Model H} {f : Bool}
    (hm : o.compile e h = (m, f)) :
    (∀ p ∈ m.places, ∃ k, p.model.origin = some k) ∧
    (o.cyclePolicy = .detect →
      (∀ p ∈ m.places, p.model.kind = .atom .recursive → p.model.children = [] ∧ p.Repeats) ∧
      (∀ i p, m.places[i]? = some p → p.Repeats →
        p.model.kind = .atom .recursive ∨
          p.model.shape = .atom .unidentified ∧ o.limits.maxNodes.toNat < i + 1 ∧ f = true) ∧
      (∀ p ∈ m.places, (p.above.map (·.origin)).Nodup) ∧
      (∀ i p, m.places[i]? = some p → ¬ p.Repeats →
        (∃ k, p.model.origin = some k ∧
          p.model.shape.map (·.origin) = (e.classify k).map some) ∨
          p.model.shape = .atom .unidentified ∧ f = true ∧
            (o.limits.maxNodes.toNat < i + 1 ∨ o.depthLimit < p.level))) ∧
    (o.cyclePolicy = .trust → ∀ p ∈ m.places, p.model.kind ≠ .atom .recursive) := by
  obtain rfl : (o.compile e h).1 = m := congrArg Prod.fst hm
  obtain rfl : (o.compile e h).2 = f := congrArg Prod.snd hm
  refine ⟨fun p => exists_origin o e h hr, fun ho => ⟨fun p hp hk => ?_, fun i p hp hrep => ?_,
    fun p => nodup_above o e h hr ho, fun i p hp hrep => ?_⟩,
    fun ho p => not_recursive_of_trust o e h ho⟩
  · refine ⟨Model.children_of_kind hk, ?_⟩
    obtain ⟨i, hi⟩ := List.mem_iff_getElem?.mp hp
    obtain ⟨hs, -⟩ | ⟨hrep, -⟩ | ⟨-, hs, -⟩ | ⟨-, k, -, hs⟩ := detect_cases o e h hr ho hi
    · exact absurd hk (Model.kind_ne_of_unidentified hs)
    · exact hrep
    · exact absurd hk (Model.kind_ne_of_unidentified hs)
    · exact absurd hk (e.kind_ne_of_map_eq hs)
  · obtain hc | ⟨-, hs⟩ | ⟨hn, -⟩ | ⟨hn, -⟩ := detect_cases o e h hr ho hp
    · exact .inr hc
    · rw [Model.kind, hs]
      exact .inl rfl
    · exact absurd hrep hn
    · exact absurd hrep hn
  · obtain ⟨hs, hi, hf⟩ | ⟨hy, -⟩ | ⟨-, hs, hl, hf⟩ | ⟨-, hk⟩ := detect_cases o e h hr ho hp
    · exact .inr ⟨hs, hf, .inl hi⟩
    · exact absurd hy hrep
    · exact .inr ⟨hs, hf, .inr hl⟩
    · exact .inl hk

theorem cycles_marked_selfUnion :
    Options.compile ⟨.detect, true, some 2, some 3⟩ Engine.selfUnion true =
        (Engine.selfUnionModel, false) ∧
      (∀ p ∈ Engine.selfUnionModel.places, p.model.kind = .atom .recursive →
        p.model.children = [] ∧ p.Repeats) ∧
      ∀ p ∈ Engine.selfUnionModel.places, (p.above.map (·.origin)).Nodup := by
  obtain ⟨-, hd, -⟩ := cycles_marked ⟨.detect, true, some 2, some 3⟩ Engine.selfUnion true rfl
    (m := Engine.selfUnionModel) rfl
  obtain ⟨hmark, -, hnodup, -⟩ := hd rfl
  exact ⟨rfl, hmark, hnodup⟩

end TypeGraph
