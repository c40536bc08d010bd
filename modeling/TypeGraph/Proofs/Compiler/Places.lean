import TypeGraph.Proofs.Compiler.Unfolding
import TypeGraph.Proofs.Engine

/-!
# Places in a compiled model

Every place of a compiled model comes from a handle. Unless the budget refused it, what it shows
depends on that handle and those around it alone (`Options.compile_cases`): the handle repeats on
its path, it is deeper than the depth limit, or there is the layer that the rules give. The same
three cases are those of an unfolding (`Engine.unfoldTo_cases`), whose places are unfoldings
themselves (`Engine.places_unfoldTo`).
-/

namespace TypeGraph

universe u v

variable {H : Type u} {S : Type v} [DecidableEq H]

namespace Engine

variable (e : Engine H S) (recordOrigin : Bool)

theorem mem_children_unfoldTo {room : ℕ} {path : Option (List H)} {h : H} {m : Model H}
    (hm : m ∈ (e.unfoldTo recordOrigin (room + 1) path h).children) :
    ∃ c ∈ (e.classify h).children, m = e.unfoldTo recordOrigin room (path.map (h :: ·)) c := by
  by_cases hp : h ∈ path.getD []
  · rw [e.unfoldTo_of_mem recordOrigin hp] at hm
    exact absurd hm List.not_mem_nil
  · rw [e.unfoldTo_succ recordOrigin hp, Model.children, Shape.children_map, List.mem_map] at hm
    obtain ⟨c, hc, rfl⟩ := hm
    exact ⟨c, hc, rfl⟩

theorem children_unfoldTo_zero (path : Option (List H)) (h : H) :
    (e.unfoldTo recordOrigin 0 path h).children = [] := by
  by_cases hp : h ∈ path.getD []
  · rw [e.unfoldTo_of_mem recordOrigin hp]
    rfl
  · rw [e.unfoldTo_zero recordOrigin hp]
    rfl

/-- A place of an unfolding is the unfolding of a handle, below the handles around it. -/
theorem places_unfoldTo {room : ℕ} {path : Option (List H)} {h : H} {p : Place H}
    (hp : p ∈ (e.unfoldTo recordOrigin room path h).places) :
    ∃ (ks : List H) (k : H) (rest : ℕ), rest + ks.length = room ∧
      p.above.map (·.origin) = ks.map (originOf recordOrigin) ∧
      p.model = e.unfoldTo recordOrigin rest (path.map (ks ++ ·)) k := by
  induction room generalizing path h p with
  | zero =>
    obtain rfl | ⟨c, hc, -⟩ := Model.mem_places.mp hp
    · exact ⟨[], h, 0, rfl, rfl, by simp⟩
    · rw [e.children_unfoldTo_zero recordOrigin] at hc
      exact absurd hc List.not_mem_nil
  | succ room ih =>
    obtain rfl | ⟨c, hc, q, hq, rfl⟩ := Model.mem_places.mp hp
    · exact ⟨[], h, room + 1, rfl, rfl, by simp⟩
    obtain ⟨c, -, rfl⟩ := e.mem_children_unfoldTo recordOrigin hc
    obtain ⟨ks, k, rest, hr, ha, hm⟩ := ih hq
    refine ⟨ks ++ [h], k, rest, ?_, ?_, ?_⟩
    · rw [List.length_append, ← hr]
      rfl
    · rw [Place.above_under, List.map_append, List.map_append, ha]
      rw [List.map_singleton, List.map_singleton, e.origin_unfoldTo recordOrigin]
    · rw [Place.model_under, hm, Option.map_map]
      simp only [Function.comp_def, List.append_assoc, List.singleton_append]

/-- What an unfolding shows: the mark of a cycle, that of the depth limit, or a layer of the
rules. -/
theorem unfoldTo_cases (room : ℕ) (path : Option (List H)) (h : H) :
    h ∈ path.getD [] ∧ e.unfoldTo recordOrigin room path h = leafOf recordOrigin h .recursive ∨
      h ∉ path.getD [] ∧ room = 0 ∧
        e.unfoldTo recordOrigin room path h = leafOf recordOrigin h .unidentified ∨
      h ∉ path.getD [] ∧ 0 < room ∧
        (e.unfoldTo recordOrigin room path h).view =
          (originOf recordOrigin h, (e.classify h).map (originOf recordOrigin)) := by
  by_cases hp : h ∈ path.getD []
  · exact .inl ⟨hp, e.unfoldTo_of_mem recordOrigin hp⟩
  cases room with
  | zero => exact .inr (.inl ⟨hp, rfl, e.unfoldTo_zero recordOrigin hp⟩)
  | succ room =>
    refine .inr (.inr ⟨hp, room.succ_pos, ?_⟩)
    rw [e.unfoldTo_succ recordOrigin hp, Model.view, Shape.map_map]
    simp only [Function.comp_def, e.origin_unfoldTo recordOrigin]

end Engine

namespace Options

/-- The handles on a path that are remembered. -/
def remembered (o : Options) (ks : List H) : List H :=
  match o.cyclePolicy with
  | .detect => ks
  | .trust => []

omit [DecidableEq H] in
theorem getD_path (o : Options) (ks : List H) :
    (o.path.map (ks ++ ·)).getD [] = o.remembered ks := by
  obtain ⟨_ | _, _, _, _⟩ := o
  · exact List.append_nil ks
  · rfl

theorem lt_of_budget_le {o : Options} {i : ℕ} (hi : o.budget ≤ i) :
    o.limits.maxNodes.toNat < i + 1 := by
  rw [budget] at hi
  split_ifs at hi with hw
  · exact absurd (top_le_iff.mp hi) (ENat.natCast_ne_top i)
  · exact Nat.lt_succ_of_le (Nat.cast_le.mp hi)

/-- What shows at a place of a compiled model, by its number in a walk: it was refused for the
budget, its handle repeats on the path, it is deeper than the depth limit, or it has the layer that
the rules give. -/
theorem compile_cases (o : Options) (e : Engine H S) (h : H) {i : ℕ} {p : Place H}
    (hp : (o.compile e h).1.places[i]? = some p) :
    ∃ (ks : List H) (k : H), p.above.map (·.origin) = ks.map (originOf o.recordOrigin) ∧
      p.model.origin = originOf o.recordOrigin k ∧
      (p.model.shape = .atom .unidentified ∧ o.limits.maxNodes.toNat < i + 1 ∧
          (o.compile e h).2 = true ∨
        k ∈ o.remembered ks ∧ p.model.shape = .atom .recursive ∨
        k ∉ o.remembered ks ∧ p.model.shape = .atom .unidentified ∧ o.depthLimit < p.level ∧
          (o.compile e h).2 = true ∨
        k ∉ o.remembered ks ∧
          p.model.shape.map (·.origin) = (e.classify k).map (originOf o.recordOrigin)) := by
  have hmem := List.mem_of_getElem? hp
  rw [o.compile_model e h] at hp
  obtain ⟨hs, hi, hn⟩ | ⟨q, hq, hv⟩ := Model.getElem?_places_keepFirst hp
  · obtain ⟨q, hq, ha, ho⟩ := Model.mem_places_keepFirst (List.mem_of_getElem? hp)
    obtain ⟨ks, k, rest, -, hks, hm⟩ := e.places_unfoldTo o.recordOrigin hq
    rw [hm, e.origin_unfoldTo] at ho
    refine ⟨ks, k, ha.trans hks, ho, .inl ⟨hs, lt_of_budget_le hi, ?_⟩⟩
    rw [o.limitExceeded_iff e h, o.compile_model e h]
    exact .inl (Model.lt_size_keepFirst hn)
  obtain ⟨ks, k, rest, hr, ha, hm⟩ := e.places_unfoldTo o.recordOrigin hq
  obtain ⟨habove, hview⟩ := Prod.ext_iff.mp hv
  replace habove : p.above.map (·.origin) = ks.map (originOf o.recordOrigin) := habove.trans ha
  replace hview : p.model.view = (e.unfoldTo o.recordOrigin rest (o.path.map (ks ++ ·)) k).view :=
    hview.trans (congrArg Model.view hm)
  obtain ⟨horigin, hshape⟩ := Prod.ext_iff.mp hview
  refine ⟨ks, k, habove, horigin.trans (e.origin_unfoldTo ..), .inr ?_⟩
  rw [← o.getD_path]
  obtain ⟨hk, hu⟩ | ⟨hk, h0, hu⟩ | ⟨hk, -, hu⟩ :=
    e.unfoldTo_cases o.recordOrigin rest (o.path.map (ks ++ ·)) k
  · rw [hu] at hshape
    exact .inl ⟨hk, Shape.eq_atom_of_map hshape⟩
  · rw [hu] at hshape
    have hs : p.model.shape = .atom .unidentified := Shape.eq_atom_of_map hshape
    have hl : o.depthLimit < p.level := by
      have hlen := congrArg List.length habove
      rw [List.length_map, List.length_map] at hlen
      rw [Place.level]
      omega
    have hx : (o.compile e h).1.Exceeds o.depthLimit :=
      ⟨p, hmem, Model.kind_ne_of_unidentified hs, hl⟩
    exact .inr (.inl ⟨hk, hs, hl, (o.limitExceeded_iff e h).mpr (.inr hx)⟩)
  · rw [hu] at hshape
    exact .inr (.inr ⟨hk, hshape⟩)

end Options

end TypeGraph
