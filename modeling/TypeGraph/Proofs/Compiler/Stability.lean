import TypeGraph.Proofs.Arena.Frame
import TypeGraph.Proofs.Compiler.Unfolding
import TypeGraph.Proofs.Engine.Layer

/-!
# Compilations while the arena grows

What a type is compiled to depends on the layers of the types that it reaches
(`Options.compile_congr`). The commands of a run change none of them if all were there before and
none is given another entry, so that the type is compiled to the same model afterwards
(`Arena.compile_stable`).
-/

namespace TypeGraph

universe u v v'

section

variable {H : Type u} {S : Type v} {S' : Type v'} [DecidableEq H] {e : Engine H S}
  {e' : Engine H S'} {h : H}

/-- Two engines unfold a type alike if all types that it reaches have the same layers. -/
theorem Engine.unfoldTo_congr (recordOrigin : Bool) (room : ℕ) (path : Option (List H))
    (hc : ∀ k, e.Reaches h k → e'.classify k = e.classify k) :
    e'.unfoldTo recordOrigin room path h = e.unfoldTo recordOrigin room path h := by
  induction room generalizing path h with
  | zero => rw [unfoldTo.eq_def, unfoldTo.eq_def]
  | succ room ih =>
    by_cases hm : h ∈ path.getD []
    · rw [e.unfoldTo_of_mem recordOrigin hm, e'.unfoldTo_of_mem recordOrigin hm]
    · rw [e.unfoldTo_succ recordOrigin hm, e'.unfoldTo_succ recordOrigin hm, hc h .refl]
      refine congrArg (Model.mk · _) (Shape.map_congr fun c hm => ih _ fun k hk => ?_)
      exact hc k (.head (leads_of_mem_classify hm) hk)

/-- Two engines give the same model and meet the same limits if all types that a type reaches have
the same layers. -/
theorem Options.compile_congr (o : Options)
    (hc : ∀ k, e.Reaches h k → e'.classify k = e.classify k) :
    o.compile e' h = o.compile e h := by
  have hm : (o.compile e' h).1 = (o.compile e h).1 := by
    rw [o.compile_model, o.compile_model, Engine.unfoldTo_congr _ _ _ hc]
  refine Prod.ext hm (Bool.eq_iff_iff.mpr ?_)
  rw [o.limitExceeded_iff, o.limitExceeded_iff, hm]

end

namespace Arena

/-- Later commands do not change what a type is compiled to: if all types that it reaches are there
with the symbols in them, and none of them is given another entry, the model and the limits met stay
the same. A `define` fails exactly if one of the two types is not there, and then changes nothing.
Otherwise it changes the answers about the first type, to those about the second one, and no other
answer, nor how literals are looked up. -/
theorem compile_stable (a : Arena) :
    (∀ (commands : List Command) (id : TypeId) (o : Options),
      (∀ k, a.engine.Reaches id k → a.Known k) →
      (∀ d ∈ a.definitions commands, ¬ a.engine.Reaches id d.1) →
      o.compile (a.run commands).engine id = o.compile a.engine id) ∧
    ∀ id shapeOf : TypeId,
      ((a.define id shapeOf).1 = false ↔ a.type? id = none ∨ a.type? shapeOf = none) ∧
      ((a.define id shapeOf).1 = false → (a.define id shapeOf).2 = a) ∧
      ((a.define id shapeOf).1 = true →
        (a.define id shapeOf).2.engine =
          a.engine.along (fun k => if k = id then shapeOf else k) ∧
        (a.define id shapeOf).2.size = a.size ∧
        (∀ value, ((a.define id shapeOf).2.stringLiteral value).1 = (a.stringLiteral value).1) ∧
        ∀ value, ((a.define id shapeOf).2.numberLiteral value).1 = (a.numberLiteral value).1) := by
  refine ⟨fun commands id o hknown hd => ?_, fun id shapeOf => ?_⟩
  · have hkeeps : a.Keeps {k | a.engine.Reaches id k} (a.run commands) := keeps_run hd
    exact o.compile_congr fun k hk => hkeeps.classify (hknown k hk) hk
  · obtain ⟨hd, hn⟩ | ⟨entry, hs, hi, hd⟩ := a.define_cases id shapeOf
    · rw [hd]
      exact ⟨iff_of_true rfl hn, fun _ => rfl, fun hf => absurd hf Bool.false_ne_true⟩
    · have hn : ¬ (a.type? id = none ∨ a.type? shapeOf = none) := by
        rintro (hi' | hs')
        · rw [hi'] at hi
          exact absurd hi Bool.false_ne_true
        · rw [hs'] at hs
          cases hs
      rw [hd]
      exact ⟨iff_of_false nofun hn, nofun, fun _ => ⟨engine_put hi hs, a.size_put id entry,
        a.fst_stringLiteral_put id entry, a.fst_numberLiteral_put id entry⟩⟩

/-- An object type with one property, which has that type again. -/
def selfObject : Arena :=
  new.run [.reserve, .property "next" ⟨14⟩, .objectWithIndex [⟨1⟩] none none, .define ⟨14⟩ ⟨15⟩]

theorem eq_of_reaches_selfObject {k : TypeId} (h : selfObject.engine.Reaches ⟨14⟩ k) :
    k = ⟨14⟩ := by
  induction h with
  | refl => rfl
  | tail _ hl ih =>
    rw [ih] at hl
    obtain hm | ha | ⟨s, hs, hd⟩ | hi | hi := hl
    · exact absurd hm List.not_mem_nil
    · exact absurd ha List.not_mem_nil
    · -- the one property is declared with the type itself
      obtain rfl := List.mem_singleton.mp hs
      exact hd.symm
    · cases hi
    · cases hi

theorem compile_stable_selfObject :
    (∀ k, selfObject.engine.Reaches ⟨14⟩ k → selfObject.Known k) ∧
      (∀ o : Options,
        o.compile (selfObject.run [.union [⟨14⟩], .define ⟨16⟩ ⟨2⟩, .define ⟨14⟩ ⟨99⟩]).engine ⟨14⟩ =
          o.compile selfObject.engine ⟨14⟩) ∧
      (selfObject.define ⟨14⟩ ⟨2⟩).2.engine =
        selfObject.engine.along (fun k => if k = ⟨14⟩ then ⟨2⟩ else k) := by
  obtain ⟨hrun, hdefine⟩ := selfObject.compile_stable
  have hknown (k : TypeId) (hk : selfObject.engine.Reaches ⟨14⟩ k) : selfObject.Known k := by
    rw [eq_of_reaches_selfObject hk]
    refine ⟨rfl, fun s hs => ?_⟩
    obtain hs | hs := hs
    · obtain rfl := List.mem_singleton.mp hs
      rfl
    · cases hs
  refine ⟨hknown, fun o => hrun _ ⟨14⟩ o hknown fun d hd hr => ?_, ?_⟩
  · -- only the new union is given another entry
    obtain rfl := List.mem_singleton.mp hd
    exact absurd (eq_of_reaches_selfObject hr) (by decide)
  · exact ((hdefine ⟨14⟩ ⟨2⟩).2.2 rfl).1

end Arena

end TypeGraph
