import TypeGraph.Proofs.Compiler.Calls
import TypeGraph.Proofs.Engine
import TypeGraph.Proofs.Engine.Cascade

/-!
# The kinds of compiled models

Wherever the guard lets a compilation into a type, the model has the kind of the first rule of the
table that applies to the type (`kind_of_first_rule`), whatever else is set in its word of flags and
whatever else the engine answers.
-/

namespace TypeGraph

universe u v

variable {H : Type u} {S : Type v} [DecidableEq H] (e : Engine H S)

/-- A model of a type that was entered has the kind that the table gives. -/
theorem kind_of_entered {g : Guard H} {h : H} {m : Model (H × Step)}
    (hm : m ∈ (g.unfoldNoted e h).1.preorder) {k : H} (hk : m.origin = some (k, .entered)) :
    m.kind = e.ruleKind k := by
  -- the room of a call is what its path may still grow
  obtain ⟨room, k', g', hroom, rfl⟩ :=
    exists_call e (I := fun room _ g' => g'.maxDepth - g'.depth = room)
      (fun room h g' hroom _ _ _ g'' hs => by
        rw [hs.maxDepth, hs.depth, Guard.maxDepth_step, Guard.depth_step]
        omega)
      rfl hm
  rw [origin_unfoldNoted] at hk
  obtain ⟨rfl, he⟩ := Prod.mk.inj (Option.some.inj hk)
  rw [kind_unfoldNoted e hroom he, e.kind_classify]

/-- The model of a type that the guard lets in has the kind of the first rule of the table that
applies, and is `unidentified` exactly if none does; so has every model below it of a type that the
guard lets in. If one of the first rules applies, nothing matters that only other rules ask. -/
theorem kind_of_first_rule :
    (∀ (recordOrigin : Bool) (g : Guard H) (h : H),
      let noted := (g.unfoldNoted e h).1
      ((g.enter h).1 = .entered → (g.unfold e recordOrigin h).1.kind = e.ruleKind h) ∧
      (g.unfold e recordOrigin h).1 =
        (noted.filterMapOrigin fun note => originOf recordOrigin note.1) ∧
      ∀ m ∈ noted.preorder, ∀ k, m.origin = some (k, .entered) → m.kind = e.ruleKind k) ∧
    (∀ (h : H) (i : ℕ) (r : Rule), Rule.table[i]? = some r → r.applies e h = true →
      (∀ r' ∈ Rule.table.take i, r'.applies e h = false) → e.ruleKind h = r.kind) ∧
    (∀ h : H, e.ruleKind h = .atom .unidentified ↔ ∀ r ∈ Rule.table, r.applies e h = false) ∧
    ∀ (h : H) (n : ℕ), (∃ r ∈ Rule.table.take n, r.applies e h = true) →
      ∀ (e' : Engine H S) (h' : H),
        (∀ r ∈ Rule.table.take n, ∀ t ∈ r.tests, t.holds e' h' = t.holds e h) →
          e'.ruleKind h' = e.ruleKind h := by
  refine ⟨fun recordOrigin g h => ?_, fun h i r => e.ruleKind_of_first h,
    e.ruleKind_eq_unidentified_iff, fun h n hn e' h' => Engine.ruleKind_congr hn⟩
  have hnoted : (g.unfold e recordOrigin h).1 =
      (g.unfoldNoted e h).1.filterMapOrigin fun note => originOf recordOrigin note.1 :=
    congrArg Prod.fst (unfold_eq_noted e recordOrigin _ h g)
  refine ⟨fun he => ?_, hnoted, fun m hm k => kind_of_entered e hm⟩
  have hroot : (g.unfoldNoted e h).1.origin = some (h, .entered) := by
    rw [Guard.unfoldNoted, origin_unfoldNoted, he]
  have hmem : (g.unfoldNoted e h).1 ∈ (g.unfoldNoted e h).1.preorder := by
    rw [Model.preorder_eq]
    exact List.mem_cons_self
  rw [hnoted, Model.kind_filterMapOrigin]
  exact kind_of_entered e hmem hroot

/-- An engine of one type with a given word of flags, and no answer to anything else. -/
def Engine.ofWord (w : TypeFlags) : Engine Unit Empty :=
  { ofMembers fun _ => [] with typeFlags := fun _ => w }

theorem kind_of_first_rule_ofWord :
    let e := Engine.ofWord ⟨0xFFFFFFFC⟩
    let e' := Engine.ofWord
      (.of [.stringLiteral, .numberLiteral, .booleanLiteral, .enumLiteral, .union])
    let g : Guard Unit := .tracking .standard
    (g.enter ()).1 = .entered ∧ Rule.table[5]? = some (.members .enumLiteral) ∧
      (∀ r ∈ Rule.table.take 5, r.applies e () = false) ∧
      (g.unfold e true ()).1.kind = .group .enumLiteral ∧
      (∀ r ∈ Rule.table.take 6, ∀ t ∈ r.tests, t.holds e' () = t.holds e ()) ∧
      (g.unfold e' true ()).1.kind = .group .enumLiteral := by
  intro e e' g
  obtain ⟨hunfold, hfirst, -, hcongr⟩ := kind_of_first_rule e
  obtain ⟨hunfold', -⟩ := kind_of_first_rule e'
  have he : (g.enter ()).1 = .entered := by decide
  have hn : ∀ r ∈ Rule.table.take 5, r.applies e () = false := by decide
  have ht : ∀ r ∈ Rule.table.take 6, ∀ t ∈ r.tests, t.holds e' () = t.holds e () := by decide
  have hk : e.ruleKind () = .group .enumLiteral := hfirst () 5 _ rfl (by decide) hn
  have hk' : e'.ruleKind () = e.ruleKind () := hcongr () 6 (by decide) e' () ht
  exact ⟨he, rfl, hn, ((hunfold true g ()).1 he).trans hk, ht,
    ((hunfold' true g ()).1 he).trans (hk'.trans hk)⟩

end TypeGraph
