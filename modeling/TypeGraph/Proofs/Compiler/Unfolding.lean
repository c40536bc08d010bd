import TypeGraph.Compiler
import TypeGraph.Proofs.Guard
import TypeGraph.Proofs.Model.KeepFirst

/-!
# What a compilation makes

A compilation goes through a graph with a guard that is changed by every step. What it makes can be
said without one: it is the unfolding of the graph to a depth (`Engine.unfoldTo`), where each path
is known by itself, with the first models kept as far as the budget goes.

* `unfold_induction`: induction by what the guard says;
* `samePath_unfold`, `budget_unfold`, `hitLimit_unfold`: what a compilation does to the guard;
* `unfold_model`: the model that it makes.

For a call with some options these are `Options.compile_model` and `Options.limitExceeded_iff`, and
`Options.compileAll_ofOptions` says that calls do not depend on those before.
-/

namespace TypeGraph

universe u v

variable {H : Type u} {S : Type v}

/-- The origin that a model gets. -/
def originOf (recordOrigin : Bool) (h : H) : Option H := if recordOrigin then some h else none

/-- A leaf that says no more than its kind. -/
def leafOf (recordOrigin : Bool) (h : H) (a : Atom) : Model H := ⟨.atom a, originOf recordOrigin h⟩

/-! ## One step -/

section

variable [DecidableEq H] (e : Engine H S) (recordOrigin : Bool)

theorem unfold_cases (room : ℕ) (h : H) (g : Guard H) :
    unfold e recordOrigin room h g =
      if g.budget = 0 then (leafOf recordOrigin h .unidentified, g.refuse)
      else if h ∈ g.path.getD [] then (leafOf recordOrigin h .recursive, g.count)
      else if g.maxDepth ≤ g.depth then (leafOf recordOrigin h .unidentified, g.refuse)
      else
        match room with
        | 0 => (leafOf recordOrigin h .unidentified, (g.step h).leave h)
        | room + 1 =>
          (⟨((e.classify h).mapAccum (unfold e recordOrigin room) (g.step h)).1,
              originOf recordOrigin h⟩,
            ((e.classify h).mapAccum (unfold e recordOrigin room) (g.step h)).2.leave h) := by
  rw [unfold.eq_def]
  dsimp only
  rw [Guard.enter_eq]
  by_cases hb : g.budget = 0
  · rw [if_pos hb, if_pos hb]
    rfl
  rw [if_neg hb, if_neg hb]
  by_cases hp : h ∈ g.path.getD []
  · rw [if_pos hp, if_pos hp]
    rfl
  rw [if_neg hp, if_neg hp]
  by_cases hd : g.maxDepth ≤ g.depth
  · rw [if_pos hd, if_pos hd]
    rfl
  rw [if_neg hd, if_neg hd]
  cases room <;> rfl

variable {room : ℕ} {h : H} {g : Guard H}

theorem unfold_out (hb : g.budget = 0) :
    unfold e recordOrigin room h g = (leafOf recordOrigin h .unidentified, g.refuse) := by
  rw [unfold_cases, if_pos hb]

theorem unfold_revisit (hb : g.budget ≠ 0) (hp : h ∈ g.path.getD []) :
    unfold e recordOrigin room h g = (leafOf recordOrigin h .recursive, g.count) := by
  rw [unfold_cases, if_neg hb, if_pos hp]

theorem unfold_deep (hb : g.budget ≠ 0) (hp : h ∉ g.path.getD []) (hd : g.maxDepth ≤ g.depth) :
    unfold e recordOrigin room h g = (leafOf recordOrigin h .unidentified, g.refuse) := by
  rw [unfold_cases, if_neg hb, if_neg hp, if_pos hd]

theorem unfold_enter (hb : g.budget ≠ 0) (hp : h ∉ g.path.getD []) (hd : g.depth < g.maxDepth) :
    unfold e recordOrigin (room + 1) h g =
      (⟨((e.classify h).mapAccum (unfold e recordOrigin room) (g.step h)).1,
          originOf recordOrigin h⟩,
        ((e.classify h).mapAccum (unfold e recordOrigin room) (g.step h)).2.leave h) := by
  rw [unfold_cases, if_neg hb, if_neg hp, if_neg (by omega)]

/-- Unfolding a type restores the path of the guard. -/
theorem samePath_unfold (room : ℕ) (h : H) (g : Guard H) :
    g.SamePath (unfold e recordOrigin room h g).2 := by
  induction room generalizing h g with
  | zero =>
    rw [unfold_cases]
    split_ifs
    · exact g.samePath_refuse
    · exact g.samePath_count
    · exact g.samePath_refuse
    · exact Guard.samePath_leave (.refl _)
  | succ room ih =>
    rw [unfold_cases]
    split_ifs
    · exact g.samePath_refuse
    · exact g.samePath_count
    · exact g.samePath_refuse
    · refine Guard.samePath_leave ?_
      rw [Shape.state_mapAccum]
      exact mapAccum_inv (I := (g.step h).SamePath) (fun a _ g' hg => hg.trans (ih a g')) (.refl _)

/-- Induction along a compilation, by what the guard says: `room` is what the path may still
grow, and the types nested in one that was entered meet a guard with that one on its path. -/
theorem unfold_induction {motive : ℕ → H → Guard H → Prop}
    (out : ∀ room h g, g.budget = 0 → motive room h g)
    (revisit : ∀ room h g, g.budget ≠ 0 → h ∈ g.path.getD [] → motive room h g)
    (deep : ∀ h g, g.budget ≠ 0 → h ∉ g.path.getD [] → g.maxDepth ≤ g.depth → motive 0 h g)
    (enter : ∀ room h g, g.budget ≠ 0 → h ∉ g.path.getD [] → g.maxDepth - g.depth = room + 1 →
      (∀ c g', (g.step h).SamePath g' → motive room c g') → motive (room + 1) h g)
    (hr : g.maxDepth - g.depth = room) (h : H) : motive room h g := by
  induction room generalizing h g with
  | zero =>
    by_cases hb : g.budget = 0
    · exact out 0 h g hb
    by_cases hp : h ∈ g.path.getD []
    · exact revisit 0 h g hb hp
    · exact deep h g hb hp (by omega)
  | succ room ih =>
    by_cases hb : g.budget = 0
    · exact out _ h g hb
    by_cases hp : h ∈ g.path.getD []
    · exact revisit _ h g hb hp
    refine enter room h g hb hp hr fun c g' hg => ih ?_ c
    rw [hg.maxDepth, Guard.maxDepth_step, hg.depth, Guard.depth_step]
    omega

/-! ## The unfolding to a depth -/

/-- The model of a type below a path, with no limit but the number of levels `room`: a handle on
the path gives a `recursive` leaf and what is deeper an `unidentified` one. -/
def Engine.unfoldTo : (room : ℕ) → (path : Option (List H)) → H → Model H
  | room, path, h =>
    if h ∈ path.getD [] then leafOf recordOrigin h .recursive
    else
      match room with
      | 0 => leafOf recordOrigin h .unidentified
      | room + 1 =>
        ⟨(e.classify h).map (unfoldTo room (path.map (h :: ·))), originOf recordOrigin h⟩

theorem Engine.unfoldTo_of_mem {room : ℕ} {path : Option (List H)} {h : H}
    (hp : h ∈ path.getD []) :
    e.unfoldTo recordOrigin room path h = leafOf recordOrigin h .recursive := by
  rw [unfoldTo.eq_def]
  exact if_pos hp

theorem Engine.unfoldTo_zero {path : Option (List H)} {h : H} (hp : h ∉ path.getD []) :
    e.unfoldTo recordOrigin 0 path h = leafOf recordOrigin h .unidentified := by
  rw [unfoldTo.eq_def]
  exact if_neg hp

theorem Engine.unfoldTo_succ {room : ℕ} {path : Option (List H)} {h : H} (hp : h ∉ path.getD []) :
    e.unfoldTo recordOrigin (room + 1) path h =
      ⟨(e.classify h).map (e.unfoldTo recordOrigin room (path.map (h :: ·))),
        originOf recordOrigin h⟩ := by
  rw [unfoldTo.eq_def]
  exact if_neg hp

theorem Engine.origin_unfoldTo (room : ℕ) (path : Option (List H)) (h : H) :
    (e.unfoldTo recordOrigin room path h).origin = originOf recordOrigin h := by
  by_cases hp : h ∈ path.getD []
  · rw [unfoldTo_of_mem e recordOrigin hp]
    rfl
  · cases room with
    | zero => rw [unfoldTo_zero e recordOrigin hp]; rfl
    | succ room => rw [unfoldTo_succ e recordOrigin hp]

/-- A compilation keeps the first models of that unfolding, as many as the budget allows. -/
theorem unfold_eq_cut (hr : g.maxDepth - g.depth = room) (h : H) :
    (unfold e recordOrigin room h g).1 =
        ((e.unfoldTo recordOrigin room g.path h).cut g.budget).1 ∧
      (unfold e recordOrigin room h g).2.budget =
        ((e.unfoldTo recordOrigin room g.path h).cut g.budget).2 := by
  refine unfold_induction (motive := fun room h g =>
    (unfold e recordOrigin room h g).1 =
        ((e.unfoldTo recordOrigin room g.path h).cut g.budget).1 ∧
      (unfold e recordOrigin room h g).2.budget =
        ((e.unfoldTo recordOrigin room g.path h).cut g.budget).2)
    ?out ?revisit ?deep ?enter hr h
  case out =>
    intro room h g hb
    rw [unfold_out e recordOrigin hb, Model.cut_eq, if_pos hb, Model.refused,
      Engine.origin_unfoldTo]
    exact ⟨rfl, by rw [Guard.budget_refuse, hb, zero_tsub]⟩
  case revisit =>
    intro room h g hb hp
    rw [unfold_revisit e recordOrigin hb hp, Model.cut_eq, if_neg hb,
      Engine.unfoldTo_of_mem e recordOrigin hp]
    exact ⟨rfl, g.budget_count⟩
  case deep =>
    intro h g hb hp hd
    rw [unfold_deep e recordOrigin hb hp hd, Model.cut_eq, if_neg hb,
      Engine.unfoldTo_zero e recordOrigin hp]
    exact ⟨rfl, g.budget_refuse⟩
  case enter =>
    intro room h g hb hp hr ih
    rw [unfold_enter e recordOrigin hb hp (by omega), Model.cut_eq, if_neg hb,
      Engine.unfoldTo_succ e recordOrigin hp,
      Shape.mapAccum_map]
    -- the budget of the guard is what is still to be kept
    have step : ∀ c ∈ (e.classify h).children, ∀ (g' : Guard H) (n : ℕ∞),
        (g.step h).SamePath g' ∧ g'.budget = n →
        (unfold e recordOrigin room c g').1 =
            ((e.unfoldTo recordOrigin room (g.path.map (h :: ·)) c).cut n).1 ∧
          (g.step h).SamePath (unfold e recordOrigin room c g').2 ∧
          (unfold e recordOrigin room c g').2.budget =
            ((e.unfoldTo recordOrigin room (g.path.map (h :: ·)) c).cut n).2 := by
      rintro c - g' n ⟨hg, rfl⟩
      obtain ⟨hm, hn⟩ := ih c g' hg
      rw [hg.path] at hm hn
      exact ⟨hm, hg.trans (samePath_unfold e recordOrigin room c g'), hn⟩
    obtain ⟨hm, -, hn⟩ := Shape.mapAccum_sim
      (R := fun (g' : Guard H) (n : ℕ∞) => (g.step h).SamePath g' ∧ g'.budget = n)
      step ⟨.refl _, g.budget_step h⟩
    exact ⟨by rw [hm], hn⟩

theorem unfold_model (hr : g.maxDepth - g.depth = room) (h : H) :
    (unfold e recordOrigin room h g).1 =
      (e.unfoldTo recordOrigin room g.path h).keepFirst g.budget :=
  (unfold_eq_cut e recordOrigin hr h).1

theorem budget_unfold (hr : g.maxDepth - g.depth = room) (h : H) :
    (unfold e recordOrigin room h g).2.budget =
      g.budget - (e.unfoldTo recordOrigin room g.path h).size := by
  rw [(unfold_eq_cut e recordOrigin hr h).2, Model.state_cut]

/-- Models unfolded one after the other meet a limit if one of them does. -/
theorem hitLimit_mapAccum {room : ℕ} {g : Guard H} (hr : g.maxDepth - g.depth = room)
    (ih : ∀ c g', g.SamePath g' →
      ((unfold e recordOrigin room c g').2.hitLimit = true ↔
        g'.hitLimit = true ∨ g'.budget < (e.unfoldTo recordOrigin room g'.path c).size ∨
          (e.unfoldTo recordOrigin room g'.path c).Exceeds room)) (cs : List H)
    {g' : Guard H} (hg : g.SamePath g') :
    (mapAccum (unfold e recordOrigin room) cs g').2.hitLimit = true ↔
      g'.hitLimit = true ∨
        g'.budget < Model.sizeAll (cs.map (e.unfoldTo recordOrigin room g.path)) ∨
          ∃ m ∈ cs.map (e.unfoldTo recordOrigin room g.path), m.Exceeds room := by
  induction cs generalizing g' with
  | nil => simp [mapAccum, Model.sizeAll]
  | cons c cs ihs =>
    have hr' : g'.maxDepth - g'.depth = room := by rw [hg.maxDepth, hg.depth, hr]
    rw [mapAccum_cons, ihs (hg.trans (samePath_unfold e recordOrigin room c g')), ih c g' hg,
      budget_unfold e recordOrigin hr', hg.path, List.map_cons, Model.sizeAll_cons,
      Model.lt_cast_add_iff, List.exists_mem_cons_iff]
    tauto

/-- A limit was met if it was before, or if the unfolding has more models than the budget allows or
more levels than the path may grow. -/
theorem hitLimit_unfold (hr : g.maxDepth - g.depth = room) (h : H) :
    (unfold e recordOrigin room h g).2.hitLimit = true ↔
      g.hitLimit = true ∨ g.budget < (e.unfoldTo recordOrigin room g.path h).size ∨
        (e.unfoldTo recordOrigin room g.path h).Exceeds room := by
  refine unfold_induction (motive := fun room h g =>
    (unfold e recordOrigin room h g).2.hitLimit = true ↔
      g.hitLimit = true ∨ g.budget < (e.unfoldTo recordOrigin room g.path h).size ∨
        (e.unfoldTo recordOrigin room g.path h).Exceeds room)
    ?out ?revisit ?deep ?enter hr h
  case out =>
    intro room h g hb
    rw [unfold_out e recordOrigin hb]
    exact iff_of_true rfl (.inr (.inl ((Model.lt_size_iff _ _).mpr (.inl hb))))
  case revisit =>
    intro room h g hb hp
    rw [unfold_revisit e recordOrigin hb hp,
      Engine.unfoldTo_of_mem e recordOrigin hp, Model.lt_size_iff]
    refine ⟨.inl, fun hl => hl.resolve_right ?_⟩
    rintro ((h0 | h0) | hx)
    · exact hb h0
    · exact not_lt_zero h0
    · exact Model.not_exceeds_of_recursive rfl hx
  case deep =>
    intro h g hb hp hd
    rw [unfold_deep e recordOrigin hb hp hd,
      Engine.unfoldTo_zero e recordOrigin hp]
    exact iff_of_true rfl
      (.inr (.inr (Model.exceeds_zero.mpr (Model.kind_ne_of_unidentified rfl))))
  case enter =>
    intro room h g hb hp hr ih
    have hr' : (g.step h).maxDepth - (g.step h).depth = room := by
      rw [Guard.maxDepth_step, Guard.depth_step]
      omega
    have hc := hitLimit_mapAccum e recordOrigin hr' ih (e.classify h).children (.refl _)
    rw [Guard.budget_step, ← Shape.state_mapAccum] at hc
    rw [unfold_enter e recordOrigin hb hp (by omega),
      Engine.unfoldTo_succ e recordOrigin hp,
      Model.lt_size_iff, Model.exceeds_succ, or_iff_right hb, Model.children, Shape.children_map]
    exact hc

end

/-! ## Calls -/

namespace Options

/-- The longest path allowed. Where cycles are looked for there is a limit on that of its own. -/
def depthLimit (o : Options) : ℕ :=
  match o.cyclePolicy with
  | .detect => min (o.maxDepth.getD maxModelDepth).toNat maxVisitingHandles.toNat
  | .trust => (o.maxDepth.getD maxWord).toNat

/-- The most models made. A limit of the largest number of 32 bits is none. -/
def budget (o : Options) : ℕ∞ :=
  if o.limits.maxNodes = maxWord then ⊤ else o.limits.maxNodes.toNat

/-- The path that a call starts with, if cycles are looked for. -/
def path (o : Options) : Option (List H) :=
  match o.cyclePolicy with
  | .detect => some []
  | .trust => none

/-- The guard that a call starts with. -/
def guard (o : Options) : Guard H := ⟨o.path, 0, 0, o.limits, false⟩

/-- What a new compiler with these options answers: the model of a type, and whether a limit was
met. -/
def compile [DecidableEq H] (o : Options) (e : Engine H S) (h : H) : Model H × Bool :=
  let (m, c) := (Compiler.ofOptions o).compile e h
  (m, c.limitExceeded)

theorem depthLimit_of_detect {o : Options} (ho : o.cyclePolicy = .detect) :
    o.depthLimit = min (o.maxDepth.getD 500).toNat 10000 := by
  rw [depthLimit, ho]
  rfl

theorem path_of_detect {o : Options} (ho : o.cyclePolicy = .detect) :
    (o.path : Option (List H)) = some [] := by
  rw [path, ho]

theorem maxDepth_guard (o : Options) : (o.guard : Guard H).maxDepth = o.depthLimit := by
  obtain ⟨_ | _, _, _, _⟩ := o <;> rfl

theorem room_guard (o : Options) :
    (o.guard : Guard H).maxDepth - (o.guard : Guard H).depth = o.depthLimit := by
  rw [maxDepth_guard]
  rfl

theorem budget_guard (o : Options) : (o.guard : Guard H).budget = o.budget := rfl

theorem guard_ofOptions (o : Options) : (Compiler.ofOptions o : Compiler H).guard = o.guard := by
  obtain ⟨_ | _, _, _, _⟩ := o <;> rfl

theorem reset_guard (o : Options) : (o.guard : Guard H).reset = o.guard := by
  obtain ⟨_ | _, _, _, _⟩ := o <;> rfl

variable [DecidableEq H]

theorem compile_eq (o : Options) (e : Engine H S) (h : H) :
    o.compile e h =
      ((unfold e o.recordOrigin o.depthLimit h o.guard).1,
        (unfold e o.recordOrigin o.depthLimit h o.guard).2.hitLimit) := by
  rw [compile, Compiler.compile, guard_ofOptions, reset_guard, Guard.unfold, maxDepth_guard]
  rfl

/-- A compiler used for some calls answers the next like a new one. -/
theorem compileAll_of_reset (o : Options) (e : Engine H S) (hs : List H) {c : Compiler H}
    (ho : c.options = o) (hg : c.guard.reset = o.guard) :
    c.compileAll e hs = hs.map (o.compile e) := by
  induction hs generalizing c with
  | nil => rfl
  | cons h hs ih =>
    have hc : c.compile e h =
        ((unfold e o.recordOrigin o.depthLimit h o.guard).1,
          ⟨o, (unfold e o.recordOrigin o.depthLimit h o.guard).2⟩) := by
      rw [Compiler.compile, hg, Guard.unfold, maxDepth_guard, ho]
      rfl
    rw [Compiler.compileAll, hc, List.map_cons, compile_eq]
    refine congrArg _ (ih rfl ?_)
    exact (samePath_unfold e o.recordOrigin o.depthLimit h o.guard).reset_eq.trans o.reset_guard

theorem compileAll_ofOptions (o : Options) (e : Engine H S) (hs : List H) :
    (Compiler.ofOptions o).compileAll e hs = hs.map (o.compile e) :=
  o.compileAll_of_reset e hs rfl (by rw [guard_ofOptions, reset_guard])

/-- A call makes the first models of the unfolding to the depth limit, as many as the budget
allows. -/
theorem compile_model (o : Options) (e : Engine H S) (h : H) :
    (o.compile e h).1 =
      (e.unfoldTo o.recordOrigin o.depthLimit o.path h).keepFirst o.budget := by
  rw [compile_eq]
  exact unfold_model e o.recordOrigin o.room_guard h

/-- Whether a limit was met shows in the model. -/
theorem limitExceeded_iff (o : Options) (e : Engine H S) (h : H) :
    (o.compile e h).2 = true ↔
      o.budget < (o.compile e h).1.size ∨ (o.compile e h).1.Exceeds o.depthLimit := by
  have hf : (o.compile e h).2 = true ↔
      o.budget < (e.unfoldTo o.recordOrigin o.depthLimit o.path h).size ∨
        (e.unfoldTo o.recordOrigin o.depthLimit o.path h).Exceeds o.depthLimit := by
    rw [compile_eq, hitLimit_unfold e o.recordOrigin o.room_guard h, budget_guard]
    exact or_iff_right Bool.false_ne_true
  rw [hf, compile_model, Model.lt_size_keepFirst_iff]
  -- where all models are kept the two models are one
  refine or_congr_right' fun hn => ?_
  rw [Model.keepFirst_of_le (not_lt.mp hn)]

end Options

end TypeGraph
