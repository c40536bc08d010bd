import TypeGraph.Proofs.Compiler.Unfolding
import TypeGraph.Proofs.Model.Origin
import TypeGraph.Proofs.Model.Walk

/-!
# A compiler can be used again

Unfolding a type leaves of a guard what it found, but for the two records that the guard keeps of
it: the steps it was asked for and whether one was refused for a limit. Both can be read off the
model: each model in it was asked for once. To say which of them were refused, `unfoldNoted` makes
the same model with the guard's answers in the place of the origins (`unfold_eq_noted`).

* `counted_unfoldNoted`: what the guard records of a model;
* `compile_leftover`: calls do not depend on the state that a compiler is left in;
* `unfold_leaves_no_trace`: both together.
-/

namespace TypeGraph

universe u v

variable {H : Type u} {S : Type v}

/-- A model that was refused for a limit: an `unidentified` leaf, and the answer noted in it. -/
def Model.WasRefused (m : Model (H × Step)) : Prop :=
  m.shape = .atom .unidentified ∧ ∃ h answer, m.origin = some (h, answer) ∧ answer.isLimit = true

theorem Model.wasRefused_mk {s : Shape (Model (H × Step))} {h : H} {answer : Step}
    (hs : answer.isLimit = true → s = .atom .unidentified) :
    WasRefused ⟨s, some (h, answer)⟩ ↔ answer.isLimit = true := by
  refine ⟨?_, fun ha => ⟨hs ha, h, answer, rfl, ha⟩⟩
  rintro ⟨-, h', answer', ho, ha⟩
  obtain ⟨-, rfl⟩ := Prod.mk.inj (Option.some.inj ho)
  exact ha

section

variable [DecidableEq H] (e : Engine H S)

/-- The model of a type as `unfold` makes it, but with the answer of the guard beside each handle. -/
def unfoldNoted : (room : ℕ) → H → Guard H → Model (H × Step) × Guard H
  | room, h, g =>
    match g.enter h with
    | (.entered, g) =>
      match room with
      | 0 => (⟨.atom .unidentified, some (h, .entered)⟩, g.leave h)
      | room + 1 =>
        let (shape, g) := (e.classify h).mapAccum (unfoldNoted room) g
        (⟨shape, some (h, .entered)⟩, g.leave h)
    | (.revisit, g) => (⟨.atom .recursive, some (h, .revisit)⟩, g)
    | (.tooDeep, g) => (⟨.atom .unidentified, some (h, .tooDeep)⟩, g)
    | (.outOfBudget, g) => (⟨.atom .unidentified, some (h, .outOfBudget)⟩, g)

/-- The model of a type below the path of a guard, with the guard's answers. -/
def Guard.unfoldNoted (g : Guard H) (h : H) : Model (H × Step) × Guard H :=
  TypeGraph.unfoldNoted e (g.maxDepth - g.depth) h g

/-- Noting the answers changes neither the model nor the guard. -/
theorem unfold_eq_noted (recordOrigin : Bool) (room : ℕ) (h : H) (g : Guard H) :
    unfold e recordOrigin room h g =
      ((unfoldNoted e room h g).1.filterMapOrigin fun note => originOf recordOrigin note.1,
        (unfoldNoted e room h g).2) := by
  induction room generalizing h g with
  | zero =>
    rw [unfold.eq_def, unfoldNoted.eq_def]
    dsimp only
    rcases g.enter h with ⟨_ | _ | _ | _, g₁⟩ <;> rw [Model.filterMapOrigin_eq] <;> rfl
  | succ room ih =>
    rw [unfold.eq_def, unfoldNoted.eq_def]
    dsimp only
    rcases g.enter h with ⟨_ | _ | _ | _, g₁⟩
    · have hs := Shape.mapAccum_eq_map (s := e.classify h) (fun c _ => ih c) g₁
      dsimp only
      rw [hs, Model.filterMapOrigin_eq]
      rfl
    all_goals
      rw [Model.filterMapOrigin_eq]
      rfl

end

/-! ## What the guard records -/

/-- A guard before and after some models were asked for: it has counted each of them, and knows
whether one was refused for a limit. -/
structure Guard.Counted (g g' : Guard H) (ms : List (Model (H × Step))) : Prop where
  nodes : g'.nodes = min (g.nodes + Model.sizeAll ms) maxWord.toNat
  hitLimit : g'.hitLimit = true ↔
    g.hitLimit = true ∨ ∃ m ∈ ms.flatMap Model.preorder, m.WasRefused

namespace Guard.Counted

variable {g g' g'' : Guard H} {m : Model (H × Step)} {ms : List (Model (H × Step))}

theorem nil (hg : g.nodes ≤ maxWord.toNat) : Counted g g [] :=
  ⟨(min_eq_left hg).symm, ⟨.inl, fun h => h.resolve_right fun ⟨_, hm, _⟩ => absurd hm (by simp)⟩⟩

theorem nodes_le (h : Counted g g' ms) : g'.nodes ≤ maxWord.toNat := by
  rw [h.nodes]
  exact min_le_right _ _

theorem cons (h : Counted g g' [m]) (hs : Counted g' g'' ms) : Counted g g'' (m :: ms) := by
  refine ⟨?_, ?_⟩
  · have hm : Model.sizeAll [m] = m.size := rfl
    rw [hs.nodes, h.nodes, hm, Model.sizeAll_cons]
    omega
  · rw [hs.hitLimit, h.hitLimit, or_assoc]
    simp only [List.flatMap_cons, List.flatMap_nil, List.append_nil, List.mem_append, or_and_right,
      exists_or]

variable [DecidableEq H] {h : H} {answer : Step} {g₁ : Guard H}

/-- A step to a model, and all that was asked for below it. -/
theorem parent {s : Shape (Model (H × Step))} (he : g.enter h = (answer, g₁))
    (ha : answer.isLimit = true → s = .atom .unidentified) (hs : Counted g₁ g' s.children) :
    Counted g g' [⟨s, some (h, answer)⟩] := by
  have hnodes := g.nodes_enter h
  have hlimit := g.hitLimit_enter h
  rw [he] at hnodes hlimit
  have hsize : Model.sizeAll [(⟨s, some (h, answer)⟩ : Model (H × Step))] =
      Model.sizeAll s.children + 1 := Model.size_eq _
  refine ⟨?_, ?_⟩
  · rw [hs.nodes, hnodes, hsize]
    omega
  · rw [hs.hitLimit, hlimit, Bool.or_eq_true, or_assoc, List.flatMap_cons, List.flatMap_nil,
      List.append_nil, Model.preorder_eq, List.exists_mem_cons_iff, Model.wasRefused_mk ha]
    rfl

theorem nodes_le_of_enter (he : g.enter h = (answer, g₁)) : g₁.nodes ≤ maxWord.toNat := by
  have hnodes := g.nodes_enter h
  rw [he] at hnodes
  exact hnodes.trans_le (min_le_right _ _)

theorem leaf {a : Atom} (he : g.enter h = (answer, g₁))
    (ha : answer.isLimit = true → a = .unidentified) :
    Counted g g₁ [⟨.atom a, some (h, answer)⟩] :=
  parent he (fun hl => congrArg Shape.atom (ha hl)) (nil (nodes_le_of_enter he))

end Guard.Counted

/-- Models that are counted each are counted one after the other. -/
theorem counted_mapAccum {f : H → Guard H → Model (H × Step) × Guard H}
    (hf : ∀ h (g : Guard H), g.Counted (f h g).2 [(f h g).1]) (hs : List H) {g : Guard H}
    (hg : g.nodes ≤ maxWord.toNat) : g.Counted (mapAccum f hs g).2 (mapAccum f hs g).1 := by
  induction hs generalizing g with
  | nil => exact .nil hg
  | cons h hs ih =>
    rw [mapAccum_cons]
    exact (hf h g).cons (ih (hf h g).nodes_le)

variable [DecidableEq H]

/-- The guard counts each model of an unfolding, and knows whether one was refused. -/
theorem counted_unfoldNoted (e : Engine H S) (room : ℕ) (h : H) (g : Guard H) :
    g.Counted (unfoldNoted e room h g).2 [(unfoldNoted e room h g).1] := by
  -- taking a step back changes nothing that is recorded
  have leave {g₁ : Guard H} {ms : List (Model (H × Step))} (hc : g.Counted g₁ ms) :
      g.Counted (g₁.leave h) ms := ⟨hc.nodes, hc.hitLimit⟩
  rw [unfoldNoted.eq_def]
  dsimp only
  rcases he : g.enter h with ⟨_ | _ | _ | _, g₁⟩
  case entered =>
    cases room with
    | zero => exact leave (.leaf he nofun)
    | succ room =>
      have hc := counted_mapAccum (counted_unfoldNoted e room) (e.classify h).children
        (Guard.Counted.nodes_le_of_enter he)
      rw [← Shape.children_mapAccum, ← Shape.state_mapAccum] at hc
      exact leave (.parent he nofun hc)
  case revisit => exact .leaf he nofun
  case tooDeep => exact .leaf he fun _ => rfl
  case outOfBudget => exact .leaf he fun _ => rfl

/-! ## Calls one after the other -/

/-- A compiler with these options, in whatever state earlier calls have left its guard. -/
def Options.leftover (o : Options) (path : List H) (depth nodes : ℕ) (hitLimit : Bool) :
    Compiler H :=
  ⟨o, ⟨o.path.map fun _ : List H => path, depth, nodes, o.limits, hitLimit⟩⟩

/-- A compiler after some more calls. -/
def Compiler.after (c : Compiler H) (e : Engine H S) (hs : List H) : Compiler H :=
  hs.foldl (fun c h => (c.compile e h).2) c

namespace Options

variable (o : Options) (e : Engine H S)

/-- A call depends on no more than the options. -/
theorem compile_of_reset {c : Compiler H} (ho : c.options = o) (hg : c.guard.reset = o.guard)
    (h : H) : c.compile e h = (Compiler.ofOptions o).compile e h := by
  obtain ⟨o', g⟩ := c
  obtain rfl : o' = o := ho
  rw [Compiler.compile, Compiler.compile, hg, guard_ofOptions, reset_guard]
  rfl

theorem samePath_compile (h : H) :
    (o.guard : Guard H).SamePath ((Compiler.ofOptions o).compile e h).2.guard := by
  rw [Compiler.compile, guard_ofOptions, reset_guard]
  exact samePath_unfold e ..

theorem options_after {c : Compiler H} (ho : c.options = o) (hg : c.guard.reset = o.guard)
    (hs : List H) : (c.after e hs).options = o ∧ (c.after e hs).guard.reset = o.guard := by
  induction hs generalizing c with
  | nil => exact ⟨ho, hg⟩
  | cons h hs ih =>
    refine ih (c := (c.compile e h).2) ho ?_
    rw [o.compile_of_reset e ho hg]
    exact (o.samePath_compile e h).reset_eq.trans o.reset_guard

/-- A call does not depend on the state that a compiler is left in, nor on the calls before. -/
theorem compile_leftover (path : List H) (depth nodes : ℕ) (hitLimit : Bool) (hs : List H) (h : H) :
    ((o.leftover path depth nodes hitLimit).after e hs).compile e h =
      (Compiler.ofOptions o).compile e h := by
  have hg : (o.leftover path depth nodes hitLimit).guard.reset = o.guard := by
    obtain ⟨_ | _, _, _, _⟩ := o <;> rfl
  obtain ⟨ho, hr⟩ := o.options_after e rfl hg hs
  exact o.compile_of_reset e ho hr h

end Options

/-- Unfolding a type leaves no trace in the guard but its two records, which tell of the model: as
many steps more as it has models, and a limit that was met if one of them was refused. So a compiler
may be used again, whatever state it is in: each call answers like the call of a new compiler, and
leaves the path empty. -/
theorem unfold_leaves_no_trace (e : Engine H S) :
    (∀ (recordOrigin : Bool) (g : Guard H) (h : H),
      let m := (g.unfold e recordOrigin h).1
      let g' := (g.unfold e recordOrigin h).2
      let noted := (g.unfoldNoted e h).1
      g'.path = g.path ∧ g'.depth = g.depth ∧ g'.limits = g.limits ∧
        g'.nodes = min (g.nodes + m.nodeCount) (2 ^ 32 - 1) ∧
        m = (noted.filterMapOrigin fun note => originOf recordOrigin note.1) ∧
        (g'.hitLimit = true ↔ g.hitLimit = true ∨ ∃ n ∈ noted.preorder, n.WasRefused)) ∧
    ∀ (o : Options) (path : List H) (depth nodes : ℕ) (hitLimit : Bool) (hs : List H) (h : H),
      let c := (o.leftover path depth nodes hitLimit).after e hs
      let new : Compiler H := .ofOptions o
      (c.compile e h).1 = (new.compile e h).1 ∧
        (c.compile e h).2.limitExceeded = (new.compile e h).2.limitExceeded ∧
        (c.compile e h).2.guard.path.getD [] = [] ∧ (c.compile e h).2.guard.depth = 0 := by
  refine ⟨fun recordOrigin g h => ?_, fun o path depth nodes hitLimit hs h => ?_⟩
  · have hp := samePath_unfold e recordOrigin (g.maxDepth - g.depth) h g
    have hc := counted_unfoldNoted e (g.maxDepth - g.depth) h g
    have hn := unfold_eq_noted e recordOrigin (g.maxDepth - g.depth) h g
    refine ⟨hp.path, hp.depth, hp.limits, ?_, congrArg Prod.fst hn, ?_⟩
    · rw [Guard.unfold, Model.nodeCount_eq, hn, Model.size_filterMapOrigin]
      exact hc.nodes
    · rw [Guard.unfold, hn, hc.hitLimit, List.flatMap_cons, List.flatMap_nil, List.append_nil]
      rfl
  · have hp := o.samePath_compile e h
    dsimp only
    rw [o.compile_leftover e path depth nodes hitLimit hs h, hp.path, hp.depth]
    refine ⟨rfl, rfl, ?_, rfl⟩
    obtain ⟨_ | _, _, _, _⟩ := o <;> rfl

end TypeGraph
