import TypeGraph.Proofs.Model.KeepFirst

/-!
# The first levels of a model

`Model.cutBelow n` keeps the first `n` levels of a model. A model on the next level becomes an
`unidentified` leaf of the same origin, unless it is a `recursive` leaf anyway, and what is deeper
is dropped.

* `places_cutBelow`: what each place of the result shows;
* `exceeds_iff_level`: some model is deeper than a number of levels if one is on the next level;
* `exceeds_cutBelow`, `size_cutBelow_le`: whether anything was cut shows, and nothing is added.
-/

namespace TypeGraph

universe u

variable {H : Type u}

/-- What a place shows once the levels below the first ones were cut. -/
def Place.viewCut (levels : ℕ) (p : Place H) : List (Option H) × Option H × Shape (Option H) :=
  if p.level = levels + 1 ∧ p.model.kind ≠ .atom .recursive then
    (p.above.map (·.origin), p.model.origin, .atom .unidentified)
  else p.view

namespace Model

/-- Keeps the first levels of a model. Below them, `recursive` leaves stay and every other model is
refused. -/
def cutBelow : (levels : ℕ) → Model H → Model H
  | 0, m => if m.kind = .atom .recursive then m else m.refused
  | levels + 1, m => ⟨m.shape.map (cutBelow levels), m.origin⟩

theorem cutBelow_of_recursive {m : Model H} (h : m.kind = .atom .recursive) (levels : ℕ) :
    m.cutBelow levels = m := by
  cases levels with
  | zero => exact if_pos h
  | succ levels =>
    obtain ⟨s, o⟩ := m
    cases s <;> simp [kind, Shape.kind] at h
    rfl

theorem cutBelow_zero_of_ne {m : Model H} (h : m.kind ≠ .atom .recursive) :
    m.cutBelow 0 = m.refused := if_neg h

theorem cutBelow_succ (levels : ℕ) (m : Model H) :
    m.cutBelow (levels + 1) = ⟨m.shape.map (cutBelow levels), m.origin⟩ := rfl

@[simp] theorem children_cutBelow_succ (levels : ℕ) (m : Model H) :
    (m.cutBelow (levels + 1)).children = m.children.map (cutBelow levels) :=
  Shape.children_map ..

@[simp] theorem origin_cutBelow (levels : ℕ) (m : Model H) :
    (m.cutBelow levels).origin = m.origin := by
  cases levels with
  | zero => by_cases h : m.kind = .atom .recursive <;> simp [cutBelow, h, refused]
  | succ levels => rfl

/-! ## Size and levels -/

theorem sizeAll_map_le {f : Model H → Model H} {ms : List (Model H)}
    (h : ∀ m ∈ ms, (f m).size ≤ m.size) : sizeAll (ms.map f) ≤ sizeAll ms := by
  induction ms with
  | nil => simp
  | cons m ms ih =>
    rw [List.forall_mem_cons] at h
    have hms := ih h.2
    simp only [List.map_cons, sizeAll_cons]
    omega

theorem size_cutBelow_le (levels : ℕ) (m : Model H) : (m.cutBelow levels).size ≤ m.size := by
  induction levels generalizing m with
  | zero =>
    by_cases h : m.kind = .atom .recursive
    · simp [cutBelow_of_recursive h]
    · have hr : m.refused.size = 1 := size_eq _
      rw [cutBelow_zero_of_ne h, hr, size_eq]
      omega
  | succ levels ih =>
    have hc := sizeAll_map_le fun c (_ : c ∈ m.children) => ih c
    rw [size_eq, size_eq m, children_cutBelow_succ]
    omega

theorem exceeds_cutBelow {levels : ℕ} {m : Model H} :
    (m.cutBelow levels).Exceeds levels ↔ m.Exceeds levels := by
  induction levels generalizing m with
  | zero =>
    by_cases h : m.kind = .atom .recursive
    · rw [cutBelow_of_recursive h]
    · rw [cutBelow_zero_of_ne h, exceeds_zero, exceeds_zero]
      exact iff_of_true (kind_ne_of_unidentified rfl) h
  | succ levels ih => simp [exceeds_succ, ih]

/-- A model that is deeper than some levels is inside one on the next level, which is no leaf. -/
theorem exceeds_iff_level {levels : ℕ} {m : Model H} :
    m.Exceeds levels ↔
      ∃ p ∈ m.places, p.model.kind ≠ .atom .recursive ∧ p.level = levels + 1 := by
  refine ⟨fun h => ?_, fun ⟨p, hp, hk, hl⟩ => ⟨p, hp, hk, by omega⟩⟩
  induction levels generalizing m with
  | zero => exact ⟨_, mem_places_root m, exceeds_zero.mp h, rfl⟩
  | succ levels ih =>
    obtain ⟨c, hc, hx⟩ := exceeds_succ.mp h
    obtain ⟨p, hp, hk, hl⟩ := ih hx
    exact ⟨p.under m, under_mem_places hc hp, hk, by simp [hl]⟩

/-! ## Places -/

theorem viewCut_comp_under (levels : ℕ) (m : Model H) :
    Place.viewCut (levels + 1) ∘ Place.under m =
      (fun v => (v.1 ++ [m.origin], v.2)) ∘ Place.viewCut levels := by
  funext p
  by_cases h : p.level = levels + 1 ∧ p.model.kind ≠ .atom .recursive
  · simp [Place.viewCut, h]
  · have h' : ¬ (p.level + 1 = levels + 1 + 1 ∧ p.model.kind ≠ .atom .recursive) := by simpa using h
    simp only [Function.comp_apply, Place.viewCut, Place.level_under, Place.model_under, if_neg h,
      if_neg h']
    exact congrFun (Place.view_comp_under m) p

/-- The places of the first levels show what they showed, but for `unidentified` leaves on the level
below. -/
theorem places_cutBelow (levels : ℕ) (m : Model H) :
    (m.cutBelow levels).places.map Place.view =
      (m.places.filter (·.level ≤ levels + 1)).map (Place.viewCut levels) := by
  induction levels generalizing m with
  | zero =>
    -- what is nested is on a level that is not kept
    have hroot : m.places.filter (·.level ≤ 0 + 1) = [⟨[], m⟩] := by
      rw [places_eq, List.filter_cons, List.filter_map]
      simp [Place.level]
    rw [hroot]
    by_cases h : m.kind = .atom .recursive
    · rw [cutBelow_of_recursive h, places_eq, children_of_kind h]
      simp [Place.viewCut, h]
    · rw [cutBelow_zero_of_ne h, places_refused]
      simp [Place.viewCut, Place.view, view, refused, Place.level, h, Shape.map]
  | succ levels ih =>
    have hroot : Place.view ⟨[], m.cutBelow (levels + 1)⟩ =
        Place.viewCut (levels + 1) ⟨[], m⟩ := by
      simp [Place.viewCut, Place.view, view, Place.level, cutBelow_succ, Shape.map_map,
        Function.comp_def]
    have hchildren : ((m.children.map (cutBelow levels)).flatMap places).map Place.view =
        ((m.children.flatMap places).filter (·.level ≤ levels + 1)).map
          (Place.viewCut levels) := by
      simp only [List.flatMap_map, List.map_flatMap, List.filter_flatMap, ih]
    have hlevel : (fun p : Place H => decide (p.level ≤ levels + 1 + 1)) ∘ Place.under m =
        fun p => decide (p.level ≤ levels + 1) := by
      funext p
      simp
    rw [places_eq, places_eq m, children_cutBelow_succ,
      List.filter_cons_of_pos (by simp [Place.level]), List.filter_map, hlevel, List.map_cons,
      List.map_cons, hroot, List.map_map, List.map_map, viewCut_comp_under, Place.view_comp_under,
      origin_cutBelow, ← List.map_map, ← List.map_map, hchildren]

end Model

end TypeGraph
