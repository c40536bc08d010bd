import TypeGraph.Proofs.Compiler.Limits
import TypeGraph.Proofs.Model.Expansion

/-!
# What a budget allows

A budget of `n` models cuts a compilation after the first `n` models of a walk
(`compile_of_budget_le`): with more of a budget it makes the same models first and goes on below
`unidentified` leaves only. It looks at no more than `n` types (`exists_footprint`).
-/

namespace TypeGraph

universe u v

variable {H : Type u} {S : Type v} [DecidableEq H]

section

variable (e : Engine H S) (recordOrigin : Bool)

/-- The types of a list are looked at for what a compilation below a guard makes: another engine
that agrees on them makes the same. They are no more than what is taken from the budget. -/
def Footprint (room : ℕ) (h : H) (g : Guard H) (hs : List H) : Prop :=
  hs.length + (unfold e recordOrigin room h g).2.budget ≤ g.budget ∧
    ∀ e' : Engine H S, (∀ k ∈ hs, e'.classify k = e.classify k) →
      unfold e' recordOrigin room h g = unfold e recordOrigin room h g

theorem mapAccum_footprint {room : ℕ} {g : Guard H}
    (ih : ∀ c g', g.SamePath g' → ∃ hs, Footprint e recordOrigin room c g' hs) (cs : List H)
    {g' : Guard H} (hg : g.SamePath g') :
    ∃ hs : List H, hs.length + (mapAccum (unfold e recordOrigin room) cs g').2.budget ≤ g'.budget ∧
      ∀ e' : Engine H S, (∀ k ∈ hs, e'.classify k = e.classify k) →
        mapAccum (unfold e' recordOrigin room) cs g' =
          mapAccum (unfold e recordOrigin room) cs g' := by
  induction cs generalizing g' with
  | nil => exact ⟨[], (zero_add _).le, fun _ _ => rfl⟩
  | cons c cs ihs =>
    obtain ⟨hs, hb, he⟩ := ih c g' hg
    obtain ⟨hs', hb', he'⟩ := ihs (hg.trans (samePath_unfold e recordOrigin room c g'))
    refine ⟨hs ++ hs', ?_, fun e' ha => ?_⟩
    · rw [mapAccum_cons, List.length_append, Nat.cast_add, add_assoc]
      exact (add_le_add_right hb' _).trans hb
    · rw [List.forall_mem_append] at ha
      rw [mapAccum_cons, mapAccum_cons, he e' ha.1, he' e' ha.2]

/-- A compilation looks at no more types than it takes from the budget. -/
theorem exists_footprint {room : ℕ} {g : Guard H} (hr : g.maxDepth - g.depth = room) (h : H) :
    ∃ hs, Footprint e recordOrigin room h g hs := by
  refine unfold_induction (motive := fun room h g => ∃ hs, Footprint e recordOrigin room h g hs)
    ?out ?revisit ?deep ?enter hr h
  case out =>
    intro room h g hb
    refine ⟨[], ?_, fun e' _ => by rw [unfold_out _ _ hb, unfold_out _ _ hb]⟩
    rw [unfold_out _ _ hb, Guard.budget_refuse]
    exact (zero_add _).trans_le tsub_le_self
  case revisit =>
    intro room h g hb hp
    refine ⟨[], ?_, fun e' _ => by rw [unfold_revisit _ _ hb hp, unfold_revisit _ _ hb hp]⟩
    rw [unfold_revisit _ _ hb hp, Guard.budget_count]
    exact (zero_add _).trans_le tsub_le_self
  case deep =>
    intro h g hb hp hd
    refine ⟨[], ?_, fun e' _ => by rw [unfold_deep _ _ hb hp hd, unfold_deep _ _ hb hp hd]⟩
    rw [unfold_deep _ _ hb hp hd, Guard.budget_refuse]
    exact (zero_add _).trans_le tsub_le_self
  case enter =>
    intro room h g hb hp hr ih
    obtain ⟨hs, hs_le, he⟩ := mapAccum_footprint e recordOrigin ih (e.classify h).children (.refl _)
    refine ⟨h :: hs, ?_, fun e' ha => ?_⟩
    · rw [unfold_enter _ _ hb hp (by omega), Guard.budget_leave, Shape.state_mapAccum,
        List.length_cons, Nat.cast_add, add_right_comm]
      rw [Guard.budget_step] at hs_le
      exact (add_le_add_left hs_le _).trans
        (tsub_add_cancel_of_le (Order.one_le_iff_ne_zero.mpr hb)).le
    · rw [List.forall_mem_cons] at ha
      rw [unfold_enter _ _ hb hp (by omega), unfold_enter _ _ hb hp (by omega), ha.1,
        Shape.mapAccum_congr (he e' ha.2)]

end

namespace Options

/-- The same options with another budget. -/
def withNodes (o : Options) (n : UInt32) : Options := { o with maxNodes := some n }

theorem budget_withNodes (o : Options) {n : UInt32} (hn : n < maxWord) :
    (o.withNodes n).budget = n.toNat := budget_of_lt hn

theorem limitExceeded_withNodes (o : Options) {n : UInt32} (hn : n < maxWord) (e : Engine H S)
    (h : H) :
    ((o.withNodes n).compile e h).2 = true ↔
      n.toNat < ((o.withNodes n).compile e h).1.size ∨
        ((o.withNodes n).compile e h).1.Exceeds o.depthLimit := by
  rw [limitExceeded_iff, budget_withNodes o hn, Nat.cast_lt]
  rfl

/-- With less of a budget a call keeps the first models of what it makes with more. -/
theorem compile_withNodes (o : Options) {n n' : UInt32} (hn : n ≤ n') (hw : n' < maxWord)
    (e : Engine H S) (h : H) :
    ((o.withNodes n).compile e h).1 = ((o.withNodes n').compile e h).1.keepFirst n.toNat := by
  have hw' : n < maxWord := UInt32.lt_of_le_of_lt hn hw
  rw [compile_model, compile_model, budget_withNodes o hw, budget_withNodes o hw',
    Model.keepFirst_keepFirst (Nat.cast_le.mpr (UInt32.le_iff_toNat_le.mp hn))]
  rfl

/-- A call looks at no more types than its budget. -/
theorem exists_footprint_withNodes (o : Options) {n : UInt32} (hn : n < maxWord) (e : Engine H S)
    (h : H) :
    ∃ hs : List H, hs.length ≤ n.toNat ∧ ∀ e' : Engine H S,
      (∀ k ∈ hs, e'.classify k = e.classify k) →
        (o.withNodes n).compile e' h = (o.withNodes n).compile e h := by
  obtain ⟨hs, hb, he⟩ := exists_footprint e o.recordOrigin (o.withNodes n).room_guard h
  refine ⟨hs, ?_, fun e' ha => ?_⟩
  · rw [budget_guard, budget_withNodes o hn] at hb
    exact Nat.cast_le.mp (le_self_add.trans hb)
  · rw [compile_eq, compile_eq]
    exact congrArg (fun r => (r.1, r.2.hitLimit)) (he e' ha)

end Options

/-- Two budgets: where the smaller one allows all models, both calls answer the same. Where it does
not, the call with the smaller one meets the limit and keeps the first models of a walk, as many as
it allows; what comes after them becomes `unidentified` leaves. -/
theorem compile_of_budget_le (o : Options) (e : Engine H S) (h : H) (n n' : UInt32) (hn : n ≤ n')
    (hw : n' < maxWord) {m m' : Model H} {f f' : Bool}
    (hm : (o.withNodes n).compile e h = (m, f)) (hm' : (o.withNodes n').compile e h = (m', f')) :
    (m'.nodeCount ≤ n.toNat → m = m' ∧ f = f') ∧
      (n.toNat < m'.nodeCount →
        f = true ∧ m = m'.keepFirst n.toNat ∧ m.origin = m'.origin ∧
          (m.preorder.take n.toNat).map Model.view = (m'.preorder.take n.toNat).map Model.view ∧
          ∀ x ∈ m.preorder.drop n.toNat, x.shape = .atom .unidentified) ∧
      Model.Expands .unidentified m m' ∧
      ∃ hs : List H, hs.length ≤ n.toNat ∧ ∀ e' : Engine H S,
        (∀ k ∈ hs, e'.classify k = e.classify k) → (o.withNodes n).compile e' h = (m, f) := by
  have hw' : n < maxWord := UInt32.lt_of_le_of_lt hn hw
  have hcut : m = m'.keepFirst n.toNat := by
    have hc := o.compile_withNodes hn hw e h
    rwa [hm, hm'] at hc
  have hf := o.limitExceeded_withNodes hw' e h
  have hf' := o.limitExceeded_withNodes hw e h
  rw [hm] at hf
  rw [hm'] at hf'
  dsimp only at hf hf'
  have hle : n.toNat ≤ n'.toNat := UInt32.le_iff_toNat_le.mp hn
  rw [Model.nodeCount_eq]
  refine ⟨fun hs => ?_, fun hs => ⟨?_, hcut, ?_, ?_⟩, ?_, ?_⟩
  · -- neither budget is short, so that both flags tell of the depth alone
    have he : m = m' := hcut.trans (Model.keepFirst_of_le (Nat.cast_le.mpr hs))
    rw [he, or_iff_right (by omega)] at hf
    rw [or_iff_right (by omega)] at hf'
    exact ⟨he, Bool.eq_iff_iff.mpr (hf.trans hf'.symm)⟩
  · rw [hf, hcut]
    exact .inl (Nat.cast_lt.mp (Model.lt_size_keepFirst (Nat.cast_lt.mpr hs)))
  · rw [hcut, Model.origin_keepFirst]
  · rw [hcut]
    exact m'.preorder_keepFirst n.toNat
  · rw [hcut]
    exact m'.keepFirst_expands _
  · rw [← hm]
    exact o.exists_footprint_withNodes hw' e h

theorem compile_of_budget_le_selfUnion :
    let o : Options := ⟨.detect, true, some 2, none⟩
    let m : Model Bool :=
      ⟨.group .union [⟨.atom .unidentified, some true⟩, ⟨.atom .unidentified, some false⟩],
        some true⟩
    (o.withNodes 1).compile Engine.selfUnion true = (m, true) ∧
      (o.withNodes 3).compile Engine.selfUnion true = (Engine.selfUnionModel, false) ∧
        m = Engine.selfUnionModel.keepFirst 1 ∧
          Model.Expands .unidentified m Engine.selfUnionModel := by
  intro o m
  obtain ⟨-, hcut, hx, -⟩ := compile_of_budget_le o Engine.selfUnion true 1 3
    (by decide) (by decide) (m := m) rfl rfl
  refine ⟨rfl, rfl, (hcut ?_).2.1, hx⟩
  rw [Model.nodeCount_eq]
  decide

end TypeGraph
