import TypeGraph.Proofs.Compiler.Places
import TypeGraph.Proofs.Engine.Layer
import TypeGraph.Proofs.Model.Depth
import TypeGraph.Proofs.Model.Origin
import TypeGraph.Proofs.Model.RoundTrip

/-!
# Compilations that read back

All number literals of a compilation are those of the engine (`Options.finiteNumbers_compile`). So
if these are finite, the text of a compilation reads back unless it nests too deep
(`compile_readsBack`). The limit on the depth of compilations does not prevent that: it allows for
models of more levels than a text may nest (`compile_chain_malformed`).
-/

namespace TypeGraph

universe u v w

variable {H : Type u} {S : Type v}

/-! ## Origins do not matter -/

namespace Model

variable {G : Type v} {F : Type w}

theorem readBack_detach (m : Model H) : ((m.detach : Model F).readBack : Model G) = m.readBack := by
  induction m using induction with
  | mk s o ih =>
    have hs : s.map (readBack ∘ detach) = (s.map readBack : Shape (Model G)) := Shape.map_congr ih
    rw [detach, filterMapOrigin_eq, readBack_eq, readBack_eq, Shape.map_map]
    exact congrArg (fun s => (⟨Shape.unsigned s, none⟩ : Model G)) hs

theorem isFinite_detach (m : Model H) : (m.detach : Model F).isFinite = m.isFinite := by
  induction m using induction with
  | mk s o ih =>
    have hs : s.children.all (isFinite ∘ (detach : Model H → Model F)) =
        s.children.all isFinite := by
      rw [Bool.eq_iff_iff, List.all_eq_true, List.all_eq_true]
      exact forall₂_congr fun c hc => by rw [Function.comp_apply, ih c hc]
    rw [detach, filterMapOrigin_eq, isFinite_eq, isFinite_eq, children, Shape.children_map,
      Shape.isFinite_map, List.all_map]
    exact congrArg _ hs

end Model

/-! ## Number literals of a compilation -/

/-- A number literal is one of the engine. -/
theorem Engine.numberLiteral_of_literal? {e : Engine H S} {h : H} {d : Double}
    (hl : e.literal? h = some (.number d) ∨ e.bigint? h = some (.number d)) :
    e.numberLiteral h = some d := by
  rcases hl with hl | hl
  · simp only [literal?, Option.or_eq_some_iff, Option.ite_none_right_eq_some,
      Option.map_eq_some_iff] at hl
    obtain ⟨-, s, -, hs⟩ | ⟨-, ⟨-, n, hn, hs⟩ | ⟨-, -, b, -, hs⟩⟩ := hl
    · cases hs
    · exact Literal.number.inj hs ▸ hn
    · cases hs
  · simp only [bigint?, Option.ite_none_right_eq_some, Option.map_eq_some_iff] at hl
    obtain ⟨-, b, -, hb⟩ := hl
    cases hb

theorem Options.finiteNumbers_compile [DecidableEq H] (o : Options) (e : Engine H S) (h : H)
    (hd : ∀ k d, e.numberLiteral k = some d → d.isFinite = true) :
    (o.compile e h).1.FiniteNumbers := by
  intro m hm d hs
  rw [← Model.map_model_places] at hm
  obtain ⟨p, hp, rfl⟩ := List.mem_map.mp hm
  obtain ⟨i, hi⟩ := List.mem_iff_getElem?.mp hp
  obtain ⟨ks, k, -, -, ⟨ha, -⟩ | ⟨-, ha⟩ | ⟨-, ha, -⟩ | ⟨-, hc⟩⟩ := o.compile_cases e h hi
  · rw [hs] at ha
    cases ha
  · rw [hs] at ha
    cases ha
  · rw [hs] at ha
    cases ha
  · have hl := e.layerOf_classify k
    rw [hs] at hc
    generalize e.classify k = c at hl hc
    cases hl with
    | literal hl =>
      obtain rfl := Shape.literal.inj hc
      exact hd k d (Engine.numberLiteral_of_literal? hl)
    | _ => cases hc

/-! ## Texts of compilations -/

variable [DecidableEq H]

/-- If the number literals of an engine are finite, the text of any compilation that does not nest
too deep reads back as the model without its origins, and any other is malformed to its reader. A
model of at most 63 levels does not nest too deep. -/
theorem compile_readsBack {G : Type} (o : Options) (e : Engine H S) (h : H)
    (hd : ∀ k d, e.numberLiteral k = some d → d.isFinite = true) :
    let m := (o.compile e h).1
    (m.toJson.depth ≤ maxNesting → ∃ n : Model G, Model.ofText m.text = .ok n ∧
        n.same (m.detach : Model G) = true ∧ n.Detached) ∧
      (maxNesting < m.toJson.depth →
        (Model.ofText m.text : Except Problem (Model G)) = .error (.fault .malformed)) ∧
      (m.height ≤ 63 → m.toJson.depth ≤ maxNesting) := by
  intro m
  have hm : m.isFinite = true := m.isFinite_iff.mpr (o.finiteNumbers_compile e h hd)
  have hread := m.ofText_text (G := G)
  refine ⟨fun hle => ⟨m.readBack, ?_, ?_, m.detached_readBack⟩, fun hlt => ?_, fun hle => ?_⟩
  · rw [hread, if_pos hle, hm, okIf_true]
  · rw [← m.readBack_detach (F := G)]
    exact Model.readBack_same (m.isFinite_detach.trans hm)
  · rw [hread, if_neg (Nat.not_le_of_lt hlt)]
  · have hdepth := m.depth_le_height
    have hmax : maxNesting = 127 := rfl
    omega

/-- An engine in which each natural number is the union of the number before it. -/
def Engine.chain : Engine Nat Empty := ofMembers fun n => if n = 0 then [] else [n - 1]

theorem compile_readsBack_chain :
    (∀ k d, Engine.chain.numberLiteral k = some d → d.isFinite = true) ∧
      ∃ n : Model Unit, Model.ofText (Options.standard.compile Engine.chain 62).1.text = .ok n := by
  have hd : ∀ k d, Engine.chain.numberLiteral k = some d → d.isFinite = true := nofun
  have hdepth : (Options.standard.compile Engine.chain 62).1.toJson.depth ≤ maxNesting := by
    decide +kernel
  obtain ⟨n, hn, -⟩ := (compile_readsBack Options.standard Engine.chain 62 hd).1 hdepth
  exact ⟨hd, n, hn⟩

/-- A compilation that meets no limit, and whose text does not read back. -/
theorem compile_chain_malformed :
    (∀ k d, Engine.chain.numberLiteral k = some d → d.isFinite = true) ∧
      (Options.standard.compile Engine.chain 63).2 = false ∧
      Model.ofText (H := Unit) (Options.standard.compile Engine.chain 63).1.text =
        .error (.fault .malformed) := by
  have hd : ∀ k d, Engine.chain.numberLiteral k = some d → d.isFinite = true := nofun
  have hdepth : maxNesting < (Options.standard.compile Engine.chain 63).1.toJson.depth := by
    decide +kernel
  refine ⟨hd, by decide +kernel, ?_⟩
  rw [Model.ofText_text, if_neg (Nat.not_le_of_lt hdepth)]

end TypeGraph
