import TypeGraph.Proofs.Compiler.Cycles
import TypeGraph.Proofs.Compiler.Depth
import TypeGraph.Proofs.Compiler.Limits

/-!
# Models whose cycles close

A `recursive` leaf stands for a model around it. A model inside a compilation is closed
(`Model.Closed`) if each of its `recursive` leaves stands for one inside of it. Such a model does
not tell what is around it, so that it is what its type is compiled to by itself (`compile_closed`).

The types around a model are taken away one after the other: `Model.ClosedOver ks` says that the
`recursive` leaves stand for models inside or for the types `ks`, and then no other type on the path
counts (`Engine.unfoldTo_of_closedOver`).
-/

namespace TypeGraph

universe u v

variable {H : Type u} {S : Type v}

theorem Place.repeats_under {m : Model H} {p : Place H} :
    (p.under m).Repeats ↔ p.Repeats ∨ m.origin = p.model.origin := by
  simp [Repeats, or_and_right, exists_or]

namespace Model

/-- Every `recursive` leaf stands for a model inside of the whole. -/
def Closed (m : Model H) : Prop := ∀ p ∈ m.places, p.model.kind = .atom .recursive → p.Repeats

/-- Every `recursive` leaf stands for a model inside of the whole or for one of some types. -/
def ClosedOver (ks : List H) (m : Model H) : Prop :=
  ∀ p ∈ m.places, p.model.kind = .atom .recursive →
    p.Repeats ∨ ∃ k ∈ ks, p.model.origin = some k

theorem closedOver_nil {m : Model H} : m.ClosedOver [] ↔ m.Closed := by
  simp [ClosedOver, Closed]

/-- Seen from a child, the type of the parent is one more that is around it. -/
theorem closedOver_iff {ks : List H} {k : H} {m : Model H} (ho : m.origin = some k) :
    m.ClosedOver ks ↔
      (m.kind = .atom .recursive → k ∈ ks) ∧ ∀ c ∈ m.children, c.ClosedOver (k :: ks) := by
  constructor
  · intro h
    refine ⟨fun hk => ?_, fun c hc p hp hk => ?_⟩
    · -- nothing is around the root
      obtain ⟨a, ha, -⟩ | ⟨k', hk', hko⟩ := h ⟨[], m⟩ (mem_places_root m) hk
      · exact absurd ha List.not_mem_nil
      · obtain rfl : k = k' := Option.some.inj (ho.symm.trans hko)
        exact hk'
    · obtain hr | ⟨k', hk', hko⟩ := h (p.under m) (under_mem_places hc hp) hk
      · obtain hr | hm := Place.repeats_under.mp hr
        · exact .inl hr
        · exact .inr ⟨k, List.mem_cons_self, hm.symm.trans ho⟩
      · exact .inr ⟨k', List.mem_cons_of_mem k hk', hko⟩
  · rintro ⟨hroot, hchildren⟩ p hp hk
    obtain rfl | ⟨c, hc, q, hq, rfl⟩ := mem_places.mp hp
    · exact .inr ⟨k, hroot hk, ho⟩
    · obtain hr | ⟨k', hk', hko⟩ := hchildren c hc q hq hk
      · exact .inl (Place.repeats_under.mpr (.inl hr))
      · obtain rfl | hk' := List.mem_cons.mp hk'
        · exact .inl (Place.repeats_under.mpr (.inr (ho.trans hko.symm)))
        · exact .inr ⟨k', hk', hko⟩

/-! ## Parts -/

theorem Exceeds.of_place {levels : ℕ} {m : Model H} {p : Place H} (hp : p ∈ m.places)
    (h : p.model.Exceeds levels) : m.Exceeds (levels + p.above.length) := by
  induction m using Model.induction generalizing p with
  | mk s o ih =>
    obtain rfl | ⟨c, hc, q, hq, rfl⟩ := mem_places.mp hp
    · exact h
    · rw [Place.above_under, List.length_append, ← Nat.add_assoc]
      exact exceeds_succ.mpr ⟨c, hc, ih c hc hq h⟩

theorem size_le_of_place {m : Model H} {p : Place H} (hp : p ∈ m.places) :
    p.model.size ≤ m.size := by
  induction m using Model.induction generalizing p with
  | mk s o ih =>
    obtain rfl | ⟨c, hc, q, hq, rfl⟩ := mem_places.mp hp
    · exact Nat.le_refl _
    · have hle : q.model.size ≤ c.size := ih c hc hq
      have hsum : c.size ≤ sizeAll (⟨s, o⟩ : Model H).children := size_le_sizeAll hc
      rw [Place.model_under, size_eq ⟨s, o⟩]
      omega

end Model

variable [DecidableEq H]

namespace Engine

variable (e : Engine H S)

/-- Types on a path that no `recursive` leaf stands for do not show. -/
theorem unfoldTo_of_closedOver (room : ℕ) (ks : List H) {ks' : List H} {k : H}
    (h : (e.unfoldTo true room (some (ks ++ ks')) k).ClosedOver ks) :
    e.unfoldTo true room (some (ks ++ ks')) k = e.unfoldTo true room (some ks) k := by
  obtain ⟨hroot, hchildren⟩ := (Model.closedOver_iff (e.origin_unfoldTo true ..)).mp h
  by_cases hp : k ∈ (some (ks ++ ks')).getD []
  · rw [e.unfoldTo_of_mem true hp] at hroot ⊢
    have hk : k ∈ (some ks).getD [] := hroot rfl
    exact (e.unfoldTo_of_mem true hk).symm
  have hk : k ∉ (some ks).getD [] := fun hk => hp (List.mem_append_left ks' hk)
  cases room with
  | zero => rw [e.unfoldTo_zero true hp, e.unfoldTo_zero true hk]
  | succ room =>
    rw [e.unfoldTo_succ true hp, Model.children, Shape.children_map, List.forall_mem_map]
      at hchildren
    rw [e.unfoldTo_succ true hp, e.unfoldTo_succ true hk]
    exact congrArg (Model.mk · _) (Shape.map_congr fun c hc =>
      unfoldTo_of_closedOver room (k :: ks) (hchildren c hc))

/-- A `recursive` leaf of an unfolding stands for a model inside or for a type on the path. -/
theorem closedOver_unfoldTo (room : ℕ) (ks : List H) (k : H) :
    (e.unfoldTo true room (some ks) k).ClosedOver ks := by
  rw [Model.closedOver_iff (e.origin_unfoldTo true ..)]
  by_cases hp : k ∈ (some ks).getD []
  · rw [e.unfoldTo_of_mem true hp]
    exact ⟨fun _ => hp, fun c hc => absurd hc List.not_mem_nil⟩
  cases room with
  | zero =>
    rw [e.unfoldTo_zero true hp]
    exact ⟨fun hk => absurd hk (Model.kind_ne_of_unidentified rfl),
      fun c hc => absurd hc List.not_mem_nil⟩
  | succ room =>
    rw [e.unfoldTo_succ true hp, Model.kind, Shape.kind_map, Model.children, Shape.children_map,
      List.forall_mem_map]
    exact ⟨fun hk => absurd hk (e.kind_classify_ne k),
      fun c _ => closedOver_unfoldTo room (k :: ks) c⟩

/-- A closed model of an unfolding that its depth did not cut is what its type unfolds to. -/
theorem unfoldTo_of_closed {room rest : ℕ} (hrest : rest ≤ room) {ks : List H} {k : H}
    (hx : ¬ (e.unfoldTo true rest (some ks) k).Exceeds rest)
    (hc : (e.unfoldTo true rest (some ks) k).Closed) :
    e.unfoldTo true room (some []) k = e.unfoldTo true rest (some ks) k := by
  have hk : e.unfoldTo true rest (some ks) k = e.unfoldTo true rest (some []) k :=
    e.unfoldTo_of_closedOver rest [] (Model.closedOver_nil.mpr hc)
  rw [hk] at hx ⊢
  exact (unfolds_unfoldTo hx).unfoldTo_eq fun h => hx (h.mono hrest)

/-- A model of an unfolding that its depth did not cut is closed exactly if its type unfolds to
it. -/
theorem closed_iff_of_place {room : ℕ} {h : H}
    (hx : ¬ (e.unfoldTo true room (some []) h).Exceeds room) {p : Place H}
    (hp : p ∈ (e.unfoldTo true room (some []) h).places) :
    ∃ k, p.model.origin = some k ∧ ¬ p.model.Exceeds room ∧
      (p.model.Closed ↔ e.unfoldTo true room (some []) k = p.model) := by
  obtain ⟨ks, k, rest, hrest, hk, hmodel⟩ := e.places_unfoldTo true hp
  have hlength : p.above.length = ks.length := by simpa using congrArg List.length hk
  rw [Option.map_some, List.append_nil] at hmodel
  have hxp : ¬ p.model.Exceeds rest := by
    intro h'
    have h' := h'.of_place hp
    rw [hlength, hrest] at h'
    exact hx h'
  refine ⟨k, hmodel ▸ e.origin_unfoldTo true rest _ k, fun h' => hxp (h'.mono (by omega)), ?_⟩
  constructor
  · intro hc
    rw [hmodel] at hxp hc ⊢
    exact e.unfoldTo_of_closed (by omega) hxp hc
  · intro hs
    rw [← hs, ← Model.closedOver_nil]
    exact e.closedOver_unfoldTo room [] k

end Engine

namespace Options

variable (o : Options) (e : Engine H S)

/-- A call meets no limit exactly if it makes the unfolding to the depth limit, and that has no more
models than the budget and no more levels than the depth limit. -/
theorem compile_eq_false_iff (h : H) (m : Model H) :
    o.compile e h = (m, false) ↔
      e.unfoldTo o.recordOrigin o.depthLimit o.path h = m ∧
        (m.size : ℕ∞) ≤ o.budget ∧ ¬ m.Exceeds o.depthLimit := by
  rw [Prod.ext_iff, ← Bool.not_eq_true, o.limitExceeded_iff, not_or, not_lt]
  constructor
  · rintro ⟨rfl, hs, hx⟩
    exact ⟨(o.compile_model_of_le e h hs).symm, hs, hx⟩
  · rintro ⟨rfl, hs, hx⟩
    rw [o.compile_model, Model.keepFirst_of_le hs]
    exact ⟨rfl, hs, hx⟩

end Options

/-- In a compilation that met no limit, with origins kept and cycles looked for, the models whose
cycles close inside of them are those that their types are compiled to by themselves; the same type
always gives the same of them. -/
theorem compile_closed (o : Options) (e : Engine H S) (h : H) (hr : o.recordOrigin = true)
    (ho : o.cyclePolicy = .detect) {m : Model H} (hm : o.compile e h = (m, false)) :
    (∀ s ∈ m.preorder, ∃ k, s.origin = some k ∧ (s.Closed ↔ o.compile e k = (s, false))) ∧
      ∀ s ∈ m.preorder, ∀ t ∈ m.preorder, s.origin = t.origin → s.Closed → t.Closed → s = t := by
  have hpath : (o.path : Option (List H)) = some [] := Options.path_of_detect ho
  have hown : ∀ s ∈ m.preorder,
      ∃ k, s.origin = some k ∧ (s.Closed ↔ o.compile e k = (s, false)) := by
    intro s hs
    rw [← Model.map_model_places] at hs
    obtain ⟨p, hp, rfl⟩ := List.mem_map.mp hs
    rw [o.compile_eq_false_iff, hr, hpath] at hm
    obtain ⟨rfl, hsize, hx⟩ := hm
    obtain ⟨k, hk, hxp, hclosed⟩ := e.closed_iff_of_place hx hp
    have hsp : (p.model.size : ℕ∞) ≤ o.budget :=
      (Nat.cast_le.mpr (Model.size_le_of_place hp)).trans hsize
    refine ⟨k, hk, ?_⟩
    rw [o.compile_eq_false_iff, hr, hpath, hclosed]
    exact (and_iff_left ⟨hsp, hxp⟩).symm
  refine ⟨hown, fun s hs t ht hst hcs hct => ?_⟩
  obtain ⟨k, hk, hsk⟩ := hown s hs
  obtain ⟨k', hk', htk⟩ := hown t ht
  obtain rfl : k = k' := Option.some.inj (hk.symm.trans (hst.trans hk'))
  exact congrArg Prod.fst ((hsk.mp hcs).symm.trans (htk.mp hct))

/-- An engine of three unions: `0` has `1` twice, `1` has itself, and `2` leads back to `0`. -/
def Engine.sharedLoop : Engine ℕ Empty :=
  ofMembers fun h => if h = 0 then [1, 2, 1] else if h = 1 then [1] else [0]

theorem compile_closed_sharedLoop :
    let o : Options := ⟨.detect, true, some 3, some 7⟩
    let loop : Model ℕ := ⟨.group .union [⟨.atom .recursive, some 1⟩], some 1⟩
    let back : Model ℕ := ⟨.group .union [⟨.atom .recursive, some 0⟩], some 2⟩
    let m : Model ℕ := ⟨.group .union [loop, back, loop], some 0⟩
    o.compile Engine.sharedLoop 0 = (m, false) ∧
      loop ∈ m.preorder ∧ loop.Closed ∧ o.compile Engine.sharedLoop 1 = (loop, false) ∧
      back ∈ m.preorder ∧ ¬ back.Closed := by
  intro o loop back m
  have hm : o.compile Engine.sharedLoop 0 = (m, false) := rfl
  obtain ⟨hown, -⟩ := compile_closed o Engine.sharedLoop 0 rfl rfl hm
  have hloop : loop ∈ m.preorder := .tail _ (.head _)
  have hback : back ∈ m.preorder := .tail _ (.tail _ (.tail _ (.head _)))
  have hclosed : loop.Closed := by
    have hplaces : loop.places = [⟨[], loop⟩, ⟨[loop], ⟨.atom .recursive, some 1⟩⟩] := rfl
    simp [Model.Closed, hplaces, Place.Repeats, loop, Model.kind, Shape.kind]
  obtain ⟨k, hk, hl⟩ := hown loop hloop
  obtain ⟨k', hk', hb⟩ := hown back hback
  obtain rfl : 1 = k := Option.some.inj hk
  obtain rfl : 2 = k' := Option.some.inj hk'
  have hnot : ¬ back.Closed := by
    intro hc
    -- by itself `2` is compiled to more than that
    have hsize := congrArg (fun r => r.1.size) (hb.mp hc)
    exact absurd hsize (by decide)
  exact ⟨hm, hloop, hclosed, hl.mp hclosed, hback, hnot⟩

end TypeGraph
