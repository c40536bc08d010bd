import TypeGraph.Proofs.Compiler.Reuse

/-!
# The calls of a compilation

Each model of a compilation is made by one call, with a guard that has the types around it on its
path. A fact that every call hands down to those nested in it holds of all of them
(`exists_call`), so that it is enough to look at one call: what the guard answered
(`origin_unfoldNoted`) and the kind that follows (`kind_unfoldNoted`).
-/

namespace TypeGraph

universe u v

variable {H : Type u} {S : Type v} [DecidableEq H] (e : Engine H S)

theorem samePath_unfoldNoted (room : ℕ) (h : H) (g : Guard H) :
    g.SamePath (unfoldNoted e room h g).2 := by
  have hs := samePath_unfold e true room h g
  rwa [unfold_eq_noted] at hs

/-- A model tells its type and what the guard said about it. -/
theorem origin_unfoldNoted (room : ℕ) (h : H) (g : Guard H) :
    (unfoldNoted e room h g).1.origin = some (h, (g.enter h).1) := by
  rw [unfoldNoted.eq_def]
  dsimp only
  rcases g.enter h with ⟨_ | _ | _ | _, g₁⟩
  case entered => cases room <;> rfl
  all_goals rfl

/-- A type that was entered has the kind that the rules give. -/
theorem kind_unfoldNoted {room : ℕ} {h : H} {g : Guard H} (hr : g.maxDepth - g.depth = room)
    (he : (g.enter h).1 = .entered) :
    (unfoldNoted e room h g).1.kind = (e.classify h).kind := by
  obtain ⟨-, -, hd⟩ := Guard.entered_iff.mp he
  obtain ⟨room, rfl⟩ : ∃ k, room = k + 1 := ⟨room - 1, by omega⟩
  rw [unfoldNoted, Guard.enter_of_entered he]
  exact Shape.kind_eq (Shape.form_mapAccum ..)

/-- The models nested in one are made by calls with its type on the path. -/
theorem mem_children_unfoldNoted {room : ℕ} {h : H} {g : Guard H} {m : Model (H × Step)}
    (hm : m ∈ (unfoldNoted e room h g).1.children) :
    (g.enter h).1 = .entered ∧ ∃ rest, room = rest + 1 ∧ ∃ k ∈ (e.classify h).children, ∃ g',
      (g.step h).SamePath g' ∧ m = (unfoldNoted e rest k g').1 := by
  by_cases he : (g.enter h).1 = .entered
  · refine ⟨he, ?_⟩
    cases room with
    | zero =>
      rw [unfoldNoted, Guard.enter_of_entered he] at hm
      exact absurd hm List.not_mem_nil
    | succ room =>
      rw [unfoldNoted, Guard.enter_of_entered he, Model.children] at hm
      dsimp only at hm
      rw [Shape.children_mapAccum] at hm
      have step : ∀ k ∈ (e.classify h).children, ∀ g', (g.step h).SamePath g' →
          (g.step h).SamePath (unfoldNoted e room k g').2 :=
        fun k _ g' hg => hg.trans (samePath_unfoldNoted e room k g')
      exact ⟨room, rfl, exists_of_mem_mapAccum step (.refl _) hm⟩
  · -- every other answer makes a leaf
    rw [unfoldNoted.eq_def] at hm
    dsimp only at hm
    rcases h' : g.enter h with ⟨_ | _ | _ | _, g₁⟩ <;> rw [h'] at hm he
    case entered => exact absurd rfl he
    all_goals exact absurd hm List.not_mem_nil

/-- What every call hands down to the calls nested in it holds of all calls below one of which it
holds, and these make all the models. -/
theorem exists_call {I : ℕ → H → Guard H → Prop}
    (nested : ∀ room h g, I (room + 1) h g → (g.enter h).1 = .entered →
      ∀ k ∈ (e.classify h).children, ∀ g', (g.step h).SamePath g' → I room k g')
    {room : ℕ} {h : H} {g : Guard H} (hI : I room h g) {m : Model (H × Step)}
    (hm : m ∈ (unfoldNoted e room h g).1.preorder) :
    ∃ rest k g', I rest k g' ∧ m = (unfoldNoted e rest k g').1 := by
  induction room generalizing h g with
  | zero =>
    rw [Model.preorder_eq, List.mem_cons, List.mem_flatMap] at hm
    obtain rfl | ⟨c, hc, -⟩ := hm
    · exact ⟨0, h, g, hI, rfl⟩
    · obtain ⟨-, rest, hrest, -⟩ := mem_children_unfoldNoted e hc
      cases hrest
  | succ room ih =>
    rw [Model.preorder_eq, List.mem_cons, List.mem_flatMap] at hm
    obtain rfl | ⟨c, hc, hm⟩ := hm
    · exact ⟨room + 1, h, g, hI, rfl⟩
    · obtain ⟨he, rest, hrest, k, hk, g', hg, rfl⟩ := mem_children_unfoldNoted e hc
      obtain rfl : room = rest := Nat.succ.inj hrest
      exact ih (nested room h g hI he k hk g' hg) hm

/-- Every model tells what the guard said about its type. -/
theorem exists_note {room : ℕ} {h : H} {g : Guard H} {m : Model (H × Step)}
    (hm : m ∈ (unfoldNoted e room h g).1.preorder) : ∃ note, m.origin = some note := by
  obtain ⟨rest, k, g', -, rfl⟩ :=
    exists_call e (I := fun _ _ _ => True) (fun _ _ _ _ _ _ _ _ _ => trivial) trivial hm
  exact ⟨_, origin_unfoldNoted e rest k g'⟩

/-- What a call answers, from what the guard said about each type. -/
theorem Options.compile_noted (o : Options) (h : H) :
    o.compile e h =
      ((o.guard.unfoldNoted e h).1.filterMapOrigin fun note => originOf o.recordOrigin note.1,
        (o.guard.unfoldNoted e h).2.hitLimit) := by
  rw [compile_eq, unfold_eq_noted, Guard.unfoldNoted, room_guard]

end TypeGraph
