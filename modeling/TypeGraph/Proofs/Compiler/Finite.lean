import TypeGraph.Proofs.Compiler.Calls
import TypeGraph.Proofs.Compiler.Depth
import TypeGraph.Proofs.Compiler.Limits
import TypeGraph.Proofs.Compiler.Places
import TypeGraph.Proofs.Compiler.Stability
import Mathlib.Data.Set.Card

/-!
# Compilations of finite graphs

Where cycles are looked for no path goes through a type twice, so that a path is no longer than
there are types to be reached (`Engine.PathFrom.length_le`). A type that reaches no more of them
than the depth limit allows is compiled without meeting that limit: what its model leaves out, it
leaves out for the budget (`compile_of_finite`).
-/

namespace TypeGraph

universe u v

variable {H : Type u} {S : Type v}

namespace Engine

/-- A path down from a type: none is on it twice, and all are reached from the type. -/
structure PathFrom (e : Engine H S) (root : H) (path : List H) : Prop where
  nodup : path.Nodup
  reached : ∀ k ∈ path, e.Reaches root k

namespace PathFrom

variable {e : Engine H S} {root k : H} {path : List H}

theorem nil (e : Engine H S) (root : H) : e.PathFrom root [] :=
  ⟨List.nodup_nil, fun _ hk => absurd hk List.not_mem_nil⟩

theorem cons (hp : e.PathFrom root path) (hk : k ∉ path) (hr : e.Reaches root k) :
    e.PathFrom root (k :: path) :=
  ⟨List.nodup_cons.mpr ⟨hk, hp.nodup⟩, List.forall_mem_cons.mpr ⟨hr, hp.reached⟩⟩

/-- A path is no longer than there are types. -/
theorem length_le (hp : e.PathFrom root path) (hf : {k | e.Reaches root k}.Finite) :
    path.length ≤ {k | e.Reaches root k}.ncard := by
  classical
  rw [← List.toFinset_card_of_nodup hp.nodup, ← Set.ncard_coe_finset]
  exact Set.ncard_le_ncard (fun k hk => hp.reached k (List.mem_toFinset.mp hk)) hf

/-- There is room for a type that is not on the path. -/
theorem length_lt (hp : e.PathFrom root path) (hf : {k | e.Reaches root k}.Finite) (hk : k ∉ path)
    (hr : e.Reaches root k) : path.length < {k | e.Reaches root k}.ncard :=
  (hp.cons hk hr).length_le hf

end PathFrom

variable {e : Engine H S} {root : H}

theorem reaches_of_mem_classify {k c : H} (hr : e.Reaches root k)
    (hc : c ∈ (e.classify k).children) : e.Reaches root c := hr.tail (leads_of_mem_classify hc)

variable [DecidableEq H]

/-- An unfolding has at most one level more than there are types, and only `recursive` leaves on
that one. -/
theorem level_unfoldTo (hf : {k | e.Reaches root k}.Finite) (recordOrigin : Bool) {room : ℕ}
    {path : List H} {k : H} (hp : e.PathFrom root path) (hr : e.Reaches root k) {p : Place H}
    (hm : p ∈ (e.unfoldTo recordOrigin room (some path) k).places) :
    p.level + path.length ≤ {k | e.Reaches root k}.ncard + 1 ∧
      (p.model.kind ≠ .atom .recursive →
        p.level + path.length ≤ {k | e.Reaches root k}.ncard) := by
  by_cases hk : k ∈ (some path).getD []
  · rw [e.unfoldTo_of_mem recordOrigin hk] at hm
    obtain rfl | ⟨c, hc, -⟩ := Model.mem_places.mp hm
    · have := hp.length_le hf
      exact ⟨by rw [Place.level, List.length_nil]; omega, fun hne => absurd rfl hne⟩
    · exact absurd hc List.not_mem_nil
  obtain rfl | ⟨m, hc, q, hq, rfl⟩ := Model.mem_places.mp hm
  · have := hp.length_lt hf hk hr
    rw [Place.level, List.length_nil]
    omega
  cases room with
  | zero =>
    rw [e.children_unfoldTo_zero recordOrigin] at hc
    exact absurd hc List.not_mem_nil
  | succ room =>
    obtain ⟨c, hm, rfl⟩ := e.mem_children_unfoldTo recordOrigin hc
    obtain ⟨hlevel, hmark⟩ :=
      level_unfoldTo hf recordOrigin (hp.cons hk hr) (reaches_of_mem_classify hr hm) hq
    rw [List.length_cons] at hlevel hmark
    rw [Place.level_under, Place.model_under]
    refine ⟨by omega, fun hne => ?_⟩
    have := hmark hne
    omega

theorem not_exceeds_unfoldTo (hf : {k | e.Reaches root k}.Finite) (recordOrigin : Bool)
    {room levels : ℕ} (hn : {k | e.Reaches root k}.ncard ≤ levels) :
    ¬ (e.unfoldTo recordOrigin room (some []) root).Exceeds levels := by
  rintro ⟨p, hp, hk, hl⟩
  have := (level_unfoldTo hf recordOrigin (.nil e root) .refl hp).2 hk
  rw [List.length_nil] at this
  omega

end Engine

/-! ## The guard -/

/-- A call for a type that is reached from a root, with a guard that remembers the path from
there. -/
structure Engine.CallFrom (e : Engine H S) (root : H) (limit : ℕ) (path : List H) (h : H)
    (g : Guard H) : Prop where
  path_eq : g.path = some path
  depth_eq : g.depth = path.length
  maxDepth_eq : g.maxDepth = limit
  pathFrom : e.PathFrom root path
  reached : e.Reaches root h

variable [DecidableEq H] (e : Engine H S)

namespace Engine.CallFrom

variable {e} {root h : H} {limit : ℕ} {path : List H} {g : Guard H}

/-- The calls nested in one have its type on the path. -/
theorem nested (hc : e.CallFrom root limit path h g) (he : (g.enter h).1 = .entered) {c : H}
    (hm : c ∈ (e.classify h).children) {g' : Guard H} (hs : (g.step h).SamePath g') :
    e.CallFrom root limit (h :: path) c g' where
  path_eq := hs.path.trans (congrArg (Option.map (h :: ·)) hc.path_eq)
  depth_eq := hs.depth.trans (congrArg (· + 1) hc.depth_eq)
  maxDepth_eq := by rw [hs.maxDepth, Guard.maxDepth_step, hc.maxDepth_eq]
  pathFrom := by
    have hp := (Guard.entered_iff.mp he).2.1
    rw [hc.path_eq] at hp
    exact hc.pathFrom.cons hp hc.reached
  reached := reaches_of_mem_classify hc.reached hm

/-- Where the depth limit has room for all types, none is too deep. -/
theorem answer_ne_tooDeep (hc : e.CallFrom root limit path h g)
    (hf : {k | e.Reaches root k}.Finite) (hn : {k | e.Reaches root k}.ncard ≤ limit) :
    (g.enter h).1 ≠ .tooDeep := by
  intro ht
  obtain ⟨-, hp, hd⟩ := Guard.tooDeep_iff.mp ht
  rw [hc.path_eq] at hp
  rw [hc.maxDepth_eq, hc.depth_eq] at hd
  have := hc.pathFrom.length_lt hf hp hc.reached
  omega

end Engine.CallFrom

/-- No model is refused as too deep if the depth limit has room for all types. -/
theorem origin_ne_tooDeep {root : H} {g : Guard H} (hg : e.CallFrom root g.maxDepth [] root g)
    (hf : {k | e.Reaches root k}.Finite) (hn : {k | e.Reaches root k}.ncard ≤ g.maxDepth)
    {m : Model (H × Step)} (hm : m ∈ (g.unfoldNoted e root).1.preorder) (k : H) :
    m.origin ≠ some (k, .tooDeep) := by
  obtain ⟨rest, h, g', ⟨path, hc⟩, rfl⟩ :=
    exists_call e (I := fun _ h g' => ∃ path, e.CallFrom root g.maxDepth path h g')
      (fun _ h _ ⟨path, hc⟩ he _ hm _ hs => ⟨h :: path, hc.nested he hm hs⟩) ⟨[], hg⟩ hm
  rw [origin_unfoldNoted]
  intro ho
  exact hc.answer_ne_tooDeep hf hn (congrArg Prod.snd (Option.some.inj ho))

/-! ## Calls -/

namespace Options

variable (o : Options)

/-- A call makes the model of a type that no limit on depth cuts, as far as the budget goes, and
meets a limit exactly if the budget ends first. -/
def CutByBudgetOnly (e : Engine H S) (h : H) : Prop :=
  ∃ m, Unfolds e o.recordOrigin o.path h m ∧ (o.compile e h).1 = m.keepFirst o.budget ∧
    ((o.compile e h).2 = true ↔ o.budget < m.nodeCount)

theorem cutByBudgetOnly_of_not_exceeds {h : H}
    (hx : ¬ (e.unfoldTo o.recordOrigin o.depthLimit o.path h).Exceeds o.depthLimit) :
    o.CutByBudgetOnly e h := by
  have hm := o.compile_model e h
  refine ⟨_, unfolds_unfoldTo hx, hm, ?_⟩
  rw [Model.nodeCount_eq, o.limitExceeded_iff e h, hm, Model.lt_size_keepFirst_iff]
  refine or_iff_left_of_imp fun hlevels => ?_
  by_contra hb
  rw [Model.keepFirst_of_le (not_lt.mp hb)] at hlevels
  exact hx hlevels

theorem CutByBudgetOnly.limitExceeded_iff {e : Engine H S} {h : H} (hc : o.CutByBudgetOnly e h)
    (hn : o.limits.maxNodes < maxWord) :
    (o.compile e h).2 = true ↔ o.limits.maxNodes.toNat < (o.compile e h).1.nodeCount := by
  obtain ⟨m, -, hm, hf⟩ := hc
  rw [hf, hm, Model.nodeCount_eq, Model.nodeCount_eq, ← Model.lt_size_keepFirst_iff,
    budget_of_lt hn, Nat.cast_lt]

section

variable {e} {h : H} (ho : o.cyclePolicy = .detect) (hf : {k | e.Reaches h k}.Finite)

include ho hf

/-- The model of a call has at most one level more than there are types, and no children on it. -/
theorem level_compile {p : Place H} (hp : p ∈ (o.compile e h).1.places) :
    p.level ≤ {k | e.Reaches h k}.ncard + 1 ∧
      (p.model.children ≠ [] → p.level ≤ {k | e.Reaches h k}.ncard) := by
  rw [o.compile_model, path_of_detect ho] at hp
  obtain ⟨q, hq, hl, hc⟩ := Model.exists_place_of_keepFirst hp
  obtain ⟨hlevel, hmark⟩ := Engine.level_unfoldTo hf o.recordOrigin (.nil e h) .refl hq
  rw [← hl]
  exact ⟨hlevel, fun hp => hmark fun hk => hc hp (Model.children_of_kind hk)⟩

variable (hn : {k | e.Reaches h k}.ncard ≤ o.depthLimit)

include hn

theorem cutByBudgetOnly_of_finite : o.CutByBudgetOnly e h := by
  refine o.cutByBudgetOnly_of_not_exceeds e ?_
  rw [path_of_detect ho]
  exact Engine.not_exceeds_unfoldTo hf o.recordOrigin hn

theorem origin_noted_ne {m : Model (H × Step)} (hm : m ∈ (o.guard.unfoldNoted e h).1.preorder)
    (k : H) : m.origin ≠ some (k, .tooDeep) := by
  rw [← o.maxDepth_guard (H := H)] at hn
  exact origin_ne_tooDeep e ⟨path_of_detect ho, rfl, rfl, .nil e h, .refl⟩ hf hn hm k

end

/-- The model of a call, with what the guard said about each type. -/
theorem compile_model_noted (h : H) :
    (o.compile e h).1 =
      (o.guard.unfoldNoted e h).1.filterMapOrigin fun note => originOf o.recordOrigin note.1 :=
  congrArg Prod.fst (o.compile_noted e h)

end Options

/-- The numbers of types are finitely many. -/
instance TypeId.finite : Finite TypeId := by
  refine .of_injective (fun id : TypeId => id.index.toFin) fun ⟨i⟩ ⟨j⟩ h => ?_
  exact congrArg TypeId.mk (UInt32.toFin_inj.mp h)

/-- Where cycles are looked for, a type that reaches finitely many types, no more than the depth
limit, is compiled without a step that is too deep. Its model has at most one level more than there
are types, and no children on that one; nothing but the budget cuts it, so that the call meets a
limit exactly if the budget is too small. In an arena every type reaches finitely many. -/
theorem compile_of_finite (o : Options) (ho : o.cyclePolicy = .detect) :
    (∀ (e : Engine H S) (h : H), {k | e.Reaches h k}.Finite →
      let n := {k | e.Reaches h k}.ncard
      n ≤ min (o.maxDepth.getD 500).toNat 10000 →
        let noted := (o.guard.unfoldNoted e h).1
        let m := (o.compile e h).1
        m = (noted.filterMapOrigin fun note => originOf o.recordOrigin note.1) ∧
        (∀ x ∈ noted.preorder, ∀ k, x.origin ≠ some (k, .tooDeep)) ∧
        (∀ p ∈ m.places, p.level ≤ n + 1 ∧ (p.model.children ≠ [] → p.level ≤ n)) ∧
        o.CutByBudgetOnly e h ∧
        (o.limits.maxNodes < maxWord →
          ((o.compile e h).2 = true ↔ o.limits.maxNodes.toNat < m.nodeCount))) ∧
    ∀ (a : Arena) (id : TypeId), {k | a.engine.Reaches id k}.Finite ∧
      ({k | a.engine.Reaches id k}.ncard ≤ min (o.maxDepth.getD 500).toNat 10000 →
        o.CutByBudgetOnly a.engine id) := by
  rw [← Options.depthLimit_of_detect ho]
  constructor
  · intro e h hf n hn noted m
    have hcut : o.CutByBudgetOnly e h := o.cutByBudgetOnly_of_finite ho hf hn
    exact ⟨o.compile_model_noted e h, fun x => o.origin_noted_ne ho hf hn,
      fun p => o.level_compile ho hf, hcut, hcut.limitExceeded_iff⟩
  · intro a id
    have hf : {k | a.engine.Reaches id k}.Finite := Set.toFinite _
    exact ⟨hf, o.cutByBudgetOnly_of_finite ho hf⟩

theorem compile_of_finite_selfUnion :
    let o : Options := ⟨.detect, true, some 2, some 2⟩
    let n := {k | Engine.selfUnion.Reaches true k}.ncard
    {k | Engine.selfUnion.Reaches true k}.Finite ∧ n ≤ 2 ∧
      (∀ p ∈ (o.compile Engine.selfUnion true).1.places,
        p.level ≤ n + 1 ∧ (p.model.children ≠ [] → p.level ≤ n)) ∧
      (o.compile Engine.selfUnion true).2 = true ∧
      2 < (o.compile Engine.selfUnion true).1.nodeCount ∧
      {k | Arena.selfObject.engine.Reaches ⟨14⟩ k}.ncard ≤ 2 ∧
      o.CutByBudgetOnly Arena.selfObject.engine ⟨14⟩ := by
  intro o n
  obtain ⟨hengine, harena⟩ := compile_of_finite (H := Bool) (S := Empty) o rfl
  have hf : {k | Engine.selfUnion.Reaches true k}.Finite := Set.toFinite _
  have hn : n ≤ 2 := (Set.ncard_le_ncard (Set.subset_univ _)).trans_eq (by simp)
  obtain ⟨-, -, hlevel, -, hflag⟩ := hengine Engine.selfUnion true hf hn
  have hself : {k | Arena.selfObject.engine.Reaches ⟨14⟩ k}.ncard ≤ 2 := by
    have hsub : {k | Arena.selfObject.engine.Reaches ⟨14⟩ k} ⊆ {⟨14⟩} :=
      fun k hk => Arena.eq_of_reaches_selfObject hk
    have := Set.ncard_le_ncard hsub
    rw [Set.ncard_singleton] at this
    omega
  have ht : (o.compile Engine.selfUnion true).2 = true := rfl
  exact ⟨hf, hn, hlevel, ht, (hflag (by decide)).mp ht, hself, (harena _ _).2 hself⟩

end TypeGraph
