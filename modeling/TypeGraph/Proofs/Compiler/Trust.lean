import TypeGraph.Proofs.Compiler.Cycles
import TypeGraph.Proofs.Model.Expansion

/-!
# Compilations that trust the graph

Without looking for cycles a compilation unfolds what would have been marked `recursive`
(`Engine.unfoldTo_expands`). With the same limits it makes the same model exactly if no mark would
have been kept (`compile_trust`), no matter which limits cut the two short.
-/

namespace TypeGraph

universe u v

variable {H : Type u} {S : Type v} [DecidableEq H]

/-- Where the path is not remembered there are larger models in the place of `recursive` leaves. -/
theorem Engine.unfoldTo_expands (e : Engine H S) (recordOrigin : Bool) (room : ℕ) (path : List H)
    (h : H) :
    Model.Expands .recursive (e.unfoldTo recordOrigin room (some path) h)
      (e.unfoldTo recordOrigin room none h) := by
  have hn (k : H) : k ∉ (none : Option (List H)).getD [] := List.not_mem_nil
  induction room generalizing path h with
  | zero =>
    rw [e.unfoldTo_zero recordOrigin (hn h)]
    by_cases hp : h ∈ path
    · rw [e.unfoldTo_of_mem recordOrigin hp]
      exact .leaf (leafOf recordOrigin h .unidentified)
    · rw [e.unfoldTo_zero recordOrigin hp]
      exact .refl _ _
  | succ room ih =>
    rw [e.unfoldTo_succ recordOrigin (hn h)]
    by_cases hp : h ∈ path
    · rw [e.unfoldTo_of_mem recordOrigin hp]
      exact .leaf ⟨_, originOf recordOrigin h⟩
    · rw [e.unfoldTo_succ recordOrigin hp]
      refine .layer (by rw [Shape.form_map, Shape.form_map]) (fun p hc => ?_) rfl
      rw [Model.children, Model.children, Shape.children_map, Shape.children_map, List.zip_map',
        List.mem_map] at hc
      obtain ⟨c, -, rfl⟩ := hc
      exact ih (h :: path) c

/-- With one pair of limits, a compilation that trusts the graph answers like one that looks for
cycles if that made no `recursive` model, and makes another model if it did. -/
theorem compile_trust (e : Engine H S) (h : H) (recordOrigin : Bool) (d : UInt32)
    (n : Option UInt32) (hd : d ≤ maxVisitingHandles) :
    let detect := Options.compile ⟨.detect, recordOrigin, some d, n⟩ e h
    let trust := Options.compile ⟨.trust, recordOrigin, some d, n⟩ e h
    (detect.1.containsKind (.atom .recursive) = false → trust = detect) ∧
      (detect.1.containsKind (.atom .recursive) = true → trust.1 ≠ detect.1) := by
  intro detect trust
  refine ⟨fun hk => ?_, fun hk he => ?_⟩
  · have hl : Options.depthLimit ⟨.detect, recordOrigin, some d, n⟩ = d.toNat :=
      min_eq_left (UInt32.le_iff_toNat_le.mp hd)
    have hdetect : detect.1 = (e.unfoldTo recordOrigin d.toNat (some []) h).keepFirst
        (Options.budget ⟨.trust, recordOrigin, some d, n⟩) := by
      rw [← hl]
      exact Options.compile_model ..
    have hm : trust.1 = detect.1 := by
      rw [hdetect] at hk ⊢
      refine (Options.compile_model ..).trans ?_
      exact congrArg Prod.fst (Model.cut_eq_of_expands (e.unfoldTo_expands ..) hk).symm
    -- the flag tells of the model, and both look at the same limits
    refine Prod.ext hm (Bool.eq_iff_iff.mpr ?_)
    rw [Options.limitExceeded_iff, Options.limitExceeded_iff, hl]
    exact iff_of_eq (congrArg (fun m : Model H => _ < (m.size : ℕ∞) ∨ m.Exceeds d.toNat) hm)
  · rw [← he, Model.containsKind_iff] at hk
    obtain ⟨x, hx, hk⟩ := hk
    rw [← Model.map_model_places] at hx
    obtain ⟨p, hp, rfl⟩ := List.mem_map.mp hx
    exact not_recursive_of_trust _ e h rfl hp hk

theorem compile_trust_selfUnion :
    (10 : UInt32) ≤ maxVisitingHandles ∧
      Options.compile ⟨.trust, true, some 10, some 3⟩ Engine.selfUnion false =
        Options.compile ⟨.detect, true, some 10, some 3⟩ Engine.selfUnion false ∧
      (Options.compile ⟨.trust, true, some 10, some 3⟩ Engine.selfUnion true).1 ≠
        (Options.compile ⟨.detect, true, some 10, some 3⟩ Engine.selfUnion true).1 := by
  refine ⟨by decide, (compile_trust Engine.selfUnion false true 10 (some 3) (by decide)).1 ?_,
    (compile_trust Engine.selfUnion true true 10 (some 3) (by decide)).2 ?_⟩
  · exact Model.containsKind_eq_false_iff.mpr
      ⟨Kind.noConfusion, fun _ hc => absurd hc List.not_mem_nil⟩
  · exact (Model.containsKind_iff _ Engine.selfUnionModel).mpr
      ⟨⟨.atom .recursive, some true⟩, .tail _ (.head _), rfl⟩

end TypeGraph
