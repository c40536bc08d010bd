import TypeGraph.Proofs.Compiler.Unfolding
import TypeGraph.Proofs.Engine
import TypeGraph.Proofs.Engine.Layer
import TypeGraph.Proofs.Engine.Renaming
import TypeGraph.Proofs.Model.Origin
import Mathlib.Data.Set.Function

/-!
# Compilations up to the names of handles

What a compilation makes of a type depends on the types that it reaches and on nothing else. Where
another engine answers about them alike, it makes the same model with the handles renamed
(`compile_renames`). Two types must not become one where cycles are looked for, since then the path
is compared by handles (`Engine.unfoldTo_renames`).
-/

namespace TypeGraph

universe u v u' v'

variable {H : Type u} {S : Type v} {H' : Type u'} {S' : Type v'}

theorem originOf_map (recordOrigin : Bool) (r : H → H') (h : H) :
    originOf recordOrigin (r h) = (originOf recordOrigin h).map r := by
  cases recordOrigin <;> rfl

theorem mapOrigin_leafOf (recordOrigin : Bool) (r : H → H') (h : H) (a : Atom) :
    (leafOf recordOrigin h a).mapOrigin r = leafOf recordOrigin (r h) a := by
  rw [Model.mapOrigin_eq, leafOf, leafOf, originOf_map]
  rfl

variable [DecidableEq H] [DecidableEq H'] {e : Engine H S} {e' : Engine H' S'} {r : H → H'}

/-- Unfoldings of types that answer alike differ in the names of their handles only. Where a path is
remembered, a handle is on it exactly if its new name is on the renamed path. -/
theorem Engine.unfoldTo_renames (recordOrigin : Bool) (room : ℕ) {path : Option (List H)} {h : H}
    (hr : ∀ k, e.Reaches h k → e.Renames e' r k)
    (hi : path.isSome = true → Set.InjOn r {k | e.Reaches h k})
    (hp : ∀ k, e.Reaches h k → (r k ∈ (path.map (List.map r)).getD [] ↔ k ∈ path.getD [])) :
    e'.unfoldTo recordOrigin room (path.map (List.map r)) (r h) =
      (e.unfoldTo recordOrigin room path h).mapOrigin r := by
  induction room generalizing path h with
  | zero =>
    by_cases hm : h ∈ path.getD []
    · rw [e.unfoldTo_of_mem recordOrigin hm, e'.unfoldTo_of_mem recordOrigin ((hp h .refl).mpr hm),
        mapOrigin_leafOf]
    · rw [e.unfoldTo_zero recordOrigin hm,
        e'.unfoldTo_zero recordOrigin (mt (hp h .refl).mp hm), mapOrigin_leafOf]
  | succ room ih =>
    by_cases hm : h ∈ path.getD []
    · rw [e.unfoldTo_of_mem recordOrigin hm, e'.unfoldTo_of_mem recordOrigin ((hp h .refl).mpr hm),
        mapOrigin_leafOf]
    rw [e.unfoldTo_succ recordOrigin hm, e'.unfoldTo_succ recordOrigin (mt (hp h .refl).mp hm),
      Model.mapOrigin_eq, classify_renames (hr h .refl), originOf_map, Shape.map_map, Shape.map_map]
    refine congrArg (Model.mk · _) (Shape.map_congr fun c hc => ?_)
    have reach : ∀ k, e.Reaches c k → e.Reaches h k :=
      fun k hk => .head (leads_of_mem_classify hc) hk
    have hpath : (path.map (List.map r)).map (r h :: ·) = (path.map (h :: ·)).map (List.map r) := by
      cases path <;> rfl
    dsimp only [Function.comp_apply]
    rw [hpath]
    refine ih (fun k hk => hr k (reach k hk)) (fun hs => ?_) fun k hk => ?_
    · rw [Option.isSome_map] at hs
      exact (hi hs).mono reach
    · have hpk := hp k (reach k hk)
      cases path with
      | none => exact hpk
      | some path =>
        -- the handle that came onto the path has a name of its own
        have hn : r k = r h ↔ k = h := (hi rfl).eq_iff (reach k hk) .refl
        have hpk : r k ∈ path.map r ↔ k ∈ path := hpk
        show r k ∈ r h :: path.map r ↔ k ∈ h :: path
        rw [List.mem_cons, List.mem_cons, hn, hpk]

/-- Two engines that answer alike about all types that a type reaches give the same model, with the
handles renamed, and meet the same limits. Only where cycles are looked for the new names must
differ. -/
theorem compile_renames (o : Options) (e : Engine H S) (e' : Engine H' S') (r : H → H') (h : H)
    (hr : ∀ k, e.Reaches h k → e.Renames e' r k)
    (hi : o.cyclePolicy = .detect → Set.InjOn r {k | e.Reaches h k}) :
    o.compile e' (r h) = ((o.compile e h).1.mapOrigin r, (o.compile e h).2) := by
  have hunfold : e'.unfoldTo o.recordOrigin o.depthLimit o.path (r h) =
      (e.unfoldTo o.recordOrigin o.depthLimit o.path h).mapOrigin r := by
    have hpath : (o.path : Option (List H')) = (o.path : Option (List H)).map (List.map r) := by
      obtain ⟨_ | _, _, _, _⟩ := o <;> rfl
    rw [hpath]
    refine Engine.unfoldTo_renames _ _ hr (fun hs => hi ?_) fun k _ => ?_
    · obtain ⟨_ | _, _, _, _⟩ := o
      · rfl
      · cases hs
    · obtain ⟨_ | _, _, _, _⟩ := o <;> exact iff_of_false List.not_mem_nil List.not_mem_nil
  have hm : (o.compile e' (r h)).1 = (o.compile e h).1.mapOrigin r := by
    rw [o.compile_model, o.compile_model, hunfold, Model.mapOrigin_keepFirst]
  refine Prod.ext hm (Bool.eq_iff_iff.mpr ?_)
  rw [o.limitExceeded_iff, hm, Model.size_mapOrigin, Model.exceeds_mapOrigin, ← o.limitExceeded_iff]

/-- The engine `Engine.selfUnion` with one more type, other handles and other flags that no rule
looks at. -/
def Engine.renamedSelfUnion : Engine (Option Bool) Empty :=
  { ofMembers fun h => if h = some true then [some true, some false] else [] with
    typeFlags := fun h => if h = none then .of [.any] else .of [.union, .index]
    objectFlags := fun _ => .of [.mapped] }

theorem compile_renames_selfUnion :
    (∀ k, Engine.selfUnion.Reaches true k →
        Engine.selfUnion.Renames Engine.renamedSelfUnion some k) ∧
      Set.InjOn some {k | Engine.selfUnion.Reaches true k} ∧
      Options.compile ⟨.detect, true, some 2, some 3⟩ Engine.renamedSelfUnion (some true) =
        (Engine.selfUnionModel.mapOrigin some, false) := by
  have hr (k : Bool) : Engine.selfUnion.Renames Engine.renamedSelfUnion some k :=
    { typeFlags := fun f hf => by
        cases f
        case index => exact absurd (List.mem_cons_self ..) hf
        all_goals cases k <;> rfl
      reference := by cases k <;> rfl
      tuple := rfl
      typeArguments := rfl
      symbolName := rfl
      stringLiteral := rfl
      numberLiteral := rfl
      booleanLiteral := rfl
      bigintLiteral := rfl
      memberTypes := by cases k <;> rfl
      properties := rfl
      stringIndex := rfl
      numberIndex := rfl }
  have hi : Set.InjOn some {k | Engine.selfUnion.Reaches true k} :=
    (Option.some_injective Bool).injOn
  exact ⟨fun k _ => hr k, hi, compile_renames ⟨.detect, true, some 2, some 3⟩ Engine.selfUnion
    Engine.renamedSelfUnion some true (fun k _ => hr k) fun _ => hi⟩

end TypeGraph
