import TypeGraph.Proofs.Compiler.Unfolding
import TypeGraph.Proofs.Engine
import TypeGraph.Proofs.Model.Levels

/-!
# What a depth limit cuts

Unfolding a type to fewer levels is unfolding it to more and cutting what is below
(`Engine.unfoldTo_eq_cutBelow`). So where the budget allows all models, a depth limit cuts a
compilation at one level and nowhere else (`compile_of_depthLimit_le`), whatever cycles there are.
-/

namespace TypeGraph

universe u v

variable {H : Type u} {S : Type v} [DecidableEq H]

/-- To a smaller depth a type unfolds to the first levels of what it unfolds to, to a larger one. -/
theorem Engine.unfoldTo_eq_cutBelow (e : Engine H S) (recordOrigin : Bool) {levels room : ℕ}
    (hl : levels ≤ room) (path : Option (List H)) (h : H) :
    e.unfoldTo recordOrigin levels path h =
      (e.unfoldTo recordOrigin room path h).cutBelow levels := by
  induction levels generalizing room path h with
  | zero =>
    by_cases hp : h ∈ path.getD []
    · rw [e.unfoldTo_of_mem recordOrigin hp, e.unfoldTo_of_mem recordOrigin hp]
      exact (Model.cutBelow_of_recursive rfl 0).symm
    · rw [e.unfoldTo_zero recordOrigin hp, Model.cutBelow_zero_of_ne, Model.refused,
        e.origin_unfoldTo]
      · rfl
      · -- a type that is not on the path is never marked
        cases room with
        | zero =>
          rw [e.unfoldTo_zero recordOrigin hp]
          exact Model.kind_ne_of_unidentified rfl
        | succ room =>
          rw [e.unfoldTo_succ recordOrigin hp, Model.kind, Shape.kind_map]
          exact e.kind_classify_ne h
  | succ levels ih =>
    by_cases hp : h ∈ path.getD []
    · rw [e.unfoldTo_of_mem recordOrigin hp, e.unfoldTo_of_mem recordOrigin hp]
      exact (Model.cutBelow_of_recursive rfl _).symm
    · obtain ⟨room, rfl⟩ : ∃ k, room = k + 1 := ⟨room - 1, by omega⟩
      rw [e.unfoldTo_succ recordOrigin hp, e.unfoldTo_succ recordOrigin hp, Model.cutBelow_succ,
        Shape.map_map]
      exact congrArg (Model.mk · _) (Shape.map_congr fun c _ => ih (by omega) _ c)

namespace Options

variable (o : Options) (e : Engine H S) (h : H)

/-- The same options with another limit on depth. -/
def withDepth (o : Options) (d : Option UInt32) : Options := { o with maxDepth := d }

theorem le_budget {n : ℕ} (hn : n ≤ o.limits.maxNodes.toNat) : (n : ℕ∞) ≤ o.budget := by
  rw [budget]
  split_ifs
  · exact le_top
  · exact Nat.cast_le.mpr hn

/-- Where the budget allows all models of a call, it is the unfolding to the depth limit. -/
theorem compile_model_of_le (hs : ((o.compile e h).1.size : ℕ∞) ≤ o.budget) :
    (o.compile e h).1 = e.unfoldTo o.recordOrigin o.depthLimit o.path h := by
  rw [o.compile_model] at hs ⊢
  refine Model.keepFirst_of_le (not_lt.mp fun hlt => ?_)
  exact absurd (Model.lt_size_keepFirst hlt) (not_lt.mpr hs)

/-- Two limits on depth, with a budget that allows all models of the call with the larger one. -/
theorem compile_withDepth {d d' : Option UInt32}
    (hd : (o.withDepth d).depthLimit ≤ (o.withDepth d').depthLimit)
    (hs : (((o.withDepth d').compile e h).1.size : ℕ∞) ≤ o.budget) :
    ((o.withDepth d).compile e h).1 =
      ((o.withDepth d').compile e h).1.cutBelow (o.withDepth d).depthLimit := by
  have hu := e.unfoldTo_eq_cutBelow o.recordOrigin hd o.path h
  have hm : ((o.withDepth d').compile e h).1 =
      e.unfoldTo o.recordOrigin (o.withDepth d').depthLimit o.path h :=
    (o.withDepth d').compile_model_of_le e h hs
  rw [hm] at hs ⊢
  rw [← hu]
  refine ((o.withDepth d).compile_model e h).trans (Model.keepFirst_of_le ?_)
  -- what is cut has no more models than the whole
  show ((e.unfoldTo o.recordOrigin (o.withDepth d).depthLimit o.path h).size : ℕ∞) ≤ o.budget
  rw [hu]
  exact (Nat.cast_le.mpr (Model.size_cutBelow_le _ _)).trans hs

/-- With one limit on depth in effect calls answer the same. -/
theorem compile_congr_depthLimit {d d' : Option UInt32}
    (hd : (o.withDepth d).depthLimit = (o.withDepth d').depthLimit) :
    (o.withDepth d).compile e h = (o.withDepth d').compile e h := by
  have hm : ((o.withDepth d).compile e h).1 = ((o.withDepth d').compile e h).1 := by
    rw [compile_model, compile_model, hd]
    rfl
  refine Prod.ext hm (Bool.eq_iff_iff.mpr ?_)
  rw [limitExceeded_iff, limitExceeded_iff, hm, hd]
  rfl

end Options

/-- Two limits on depth, the smaller one and one under which the budget allows all models: the
smaller one cuts the model at one level. Each model there that is not `recursive` becomes an
`unidentified` leaf of the same origin, and nothing else changes; the call meets a limit exactly if
there is such a model. Where cycles are looked for no limit on depth is larger than that on
remembered handles, so that two limits that are not below it are one. -/
theorem compile_of_depthLimit_le (o : Options) (e : Engine H S) (h : H) :
    (∀ d d' : Option UInt32, (o.withDepth d).depthLimit ≤ (o.withDepth d').depthLimit →
      let levels := (o.withDepth d).depthLimit
      let m := ((o.withDepth d).compile e h).1
      let m' := ((o.withDepth d').compile e h).1
      m'.nodeCount ≤ o.limits.maxNodes.toNat →
        m = m'.cutBelow levels ∧
        m.places.map Place.view =
          (m'.places.filter (·.level ≤ levels + 1)).map (Place.viewCut levels) ∧
        (((o.withDepth d).compile e h).2 = true ↔
          ∃ p ∈ m'.places, p.model.kind ≠ .atom .recursive ∧ p.level = levels + 1)) ∧
    (o.cyclePolicy = .detect →
      (∀ d : UInt32, (o.withDepth (some d)).depthLimit = min d.toNat 10000) ∧
      ∀ d d' : UInt32, 10000 ≤ d → 10000 ≤ d' →
        (o.withDepth (some d)).compile e h = (o.withDepth (some d')).compile e h) := by
  constructor
  · intro d d' hd levels m m' hn
    rw [Model.nodeCount_eq] at hn
    have hs : (m'.size : ℕ∞) ≤ o.budget := o.le_budget hn
    have hm : m = m'.cutBelow levels := o.compile_withDepth e h hd hs
    refine ⟨hm, ?_, ?_⟩
    · rw [hm]
      exact m'.places_cutBelow levels
    · have hbudget : ¬ o.budget < m.size := by
        rw [hm, not_lt]
        exact (Nat.cast_le.mpr (Model.size_cutBelow_le levels m')).trans hs
      have hx : m.Exceeds levels ↔ m'.Exceeds levels := by
        rw [hm]
        exact Model.exceeds_cutBelow
      rw [Options.limitExceeded_iff, ← Model.exceeds_iff_level, ← hx]
      exact or_iff_right hbudget
  · intro hp
    have hl (d : UInt32) : (o.withDepth (some d)).depthLimit = min d.toNat 10000 :=
      Options.depthLimit_of_detect hp
    refine ⟨hl, fun d d' h₁ h₂ => o.compile_congr_depthLimit e h ?_⟩
    have h₁ : 10000 ≤ d.toNat := UInt32.le_iff_toNat_le.mp h₁
    have h₂ : 10000 ≤ d'.toNat := UInt32.le_iff_toNat_le.mp h₂
    rw [hl, hl, Nat.min_eq_right h₁, Nat.min_eq_right h₂]

theorem compile_of_depthLimit_le_selfUnion :
    let o : Options := ⟨.detect, true, none, some 3⟩
    let m : Model Bool :=
      ⟨.group .union [⟨.atom .recursive, some true⟩, ⟨.atom .unidentified, some false⟩], some true⟩
    (o.withDepth (some 1)).depthLimit ≤ (o.withDepth (some 2)).depthLimit ∧
      (o.withDepth (some 2)).compile Engine.selfUnion true = (Engine.selfUnionModel, false) ∧
      Engine.selfUnionModel.nodeCount ≤ o.limits.maxNodes.toNat ∧
      (o.withDepth (some 1)).compile Engine.selfUnion true = (m, true) ∧
      m = Engine.selfUnionModel.cutBelow 1 ∧
      (∃ p ∈ Engine.selfUnionModel.places, p.model.kind ≠ .atom .recursive ∧ p.level = 2) ∧
      (o.withDepth (some 10000)).compile Engine.selfUnion true =
        (o.withDepth (some 10001)).compile Engine.selfUnion true := by
  intro o m
  have hd : (o.withDepth (some 1)).depthLimit ≤ (o.withDepth (some 2)).depthLimit := by decide
  have hn : Engine.selfUnionModel.nodeCount ≤ o.limits.maxNodes.toNat := by
    rw [Model.nodeCount_eq]
    decide
  obtain ⟨hlimits, hdetect⟩ := compile_of_depthLimit_le o Engine.selfUnion true
  obtain ⟨hm, -, hf⟩ := hlimits (some 1) (some 2) hd hn
  exact ⟨hd, rfl, hn, rfl, hm, hf.mp rfl, (hdetect rfl).2 10000 10001 (by decide) (by decide)⟩

end TypeGraph
