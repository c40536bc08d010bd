import TypeGraph.Proofs.Model.Walk

/-!
# Places in a model

One model may occur in another at several places, and what a compilation made of it depends on the
models around it. A `Place` is a model together with those around it; `Model.places` lists the
places of a model in the order of a walk (`map_model_places`), so that the number of a place in the
list is its position in that order.

* `mem_places_above`: the models around a place have places of their own;
* `mem_places`: a place is the root or inside a child;
* `Model.Exceeds`: some model deeper than a number of levels is no `recursive` leaf.
-/

namespace TypeGraph

universe u

variable {H : Type u}

/-- What a model says by itself: its origin, and its layer with origins in the place of the models
nested in it. -/
def Model.view (m : Model H) : Option H × Shape (Option H) := (m.origin, m.shape.map (·.origin))

/-- A place in a model: the models around it, the innermost first, and the model there. -/
structure Place (H : Type u) where
  above : List (Model H)
  model : Model H

namespace Place

/-- The same place, seen from a model around the whole. -/
def under (m : Model H) (p : Place H) : Place H := ⟨p.above ++ [m], p.model⟩

/-- The level of a place; that of the root is 1. -/
def level (p : Place H) : Nat := p.above.length + 1

/-- The origins around a place and what the model there says. -/
def view (p : Place H) : List (Option H) × Option H × Shape (Option H) :=
  (p.above.map (·.origin), p.model.view)

@[simp] theorem model_under (m : Model H) (p : Place H) : (p.under m).model = p.model := rfl

@[simp] theorem above_under (m : Model H) (p : Place H) : (p.under m).above = p.above ++ [m] := rfl

@[simp] theorem level_under (m : Model H) (p : Place H) : (p.under m).level = p.level + 1 := by
  simp [level]

theorem level_eq {p q : Place H} (h : p.above.map (·.origin) = q.above.map (·.origin)) :
    p.level = q.level := by
  simpa [level] using congrArg List.length h

theorem view_comp_under (m : Model H) :
    view ∘ under m = (fun v => (v.1 ++ [m.origin], v.2)) ∘ view := by
  funext p
  simp [view]

end Place

namespace Model

/-- The places of a model, in the order of a walk. -/
def places (m : Model H) : List (Place H) :=
  fold (fun m s => ⟨[], m⟩ :: s.children.flatten.map (·.under m)) m

theorem places_eq (m : Model H) :
    m.places = ⟨[], m⟩ :: (m.children.flatMap places).map (·.under m) := by
  rw [places, fold_eq, Shape.children_map]
  rfl

/-- The models at the places are those of a walk. -/
theorem map_model_places (m : Model H) : m.places.map (·.model) = m.preorder := by
  induction m using Model.induction with
  | mk s o ih =>
    rw [places_eq, preorder_eq, List.map_cons, List.map_map]
    refine congrArg _ ?_
    rw [show ((·.model) ∘ Place.under ⟨s, o⟩ : Place H → Model H) = (·.model) from rfl,
      List.map_flatMap]
    exact List.flatMap_congr ih

theorem length_places (m : Model H) : m.places.length = m.size := by
  rw [← length_preorder, ← map_model_places, List.length_map]

/-- A place is the root or inside a child. -/
theorem mem_places {m : Model H} {p : Place H} :
    p ∈ m.places ↔ p = ⟨[], m⟩ ∨ ∃ c ∈ m.children, ∃ q ∈ c.places, q.under m = p := by
  rw [places_eq, List.mem_cons, List.mem_map]
  simp only [List.mem_flatMap]
  exact or_congr Iff.rfl ⟨fun ⟨q, ⟨c, hc, hq⟩, e⟩ => ⟨c, hc, q, hq, e⟩,
    fun ⟨c, hc, q, hq, e⟩ => ⟨q, ⟨c, hc, hq⟩, e⟩⟩

theorem mem_places_root (m : Model H) : ⟨[], m⟩ ∈ m.places := mem_places.mpr (.inl rfl)

theorem under_mem_places {m c : Model H} (hc : c ∈ m.children) {p : Place H} (hp : p ∈ c.places) :
    p.under m ∈ m.places := mem_places.mpr (.inr ⟨c, hc, p, hp, rfl⟩)

/-- The model around a place has a place of its own. -/
theorem mem_places_above {m a x : Model H} {as : List (Model H)} (h : ⟨a :: as, x⟩ ∈ m.places) :
    ⟨as, a⟩ ∈ m.places ∧ x ∈ a.children := by
  induction m using Model.induction generalizing as a with
  | mk s o ih =>
    rcases mem_places.mp h with e | ⟨c, hc, ⟨bs, y⟩, hq, e⟩
    · cases e
    simp only [Place.under, Place.mk.injEq] at e
    obtain ⟨e, rfl⟩ := e
    cases bs with
    | nil =>
      -- nothing but the root is around: the place is that of the child itself
      obtain ⟨rfl, rfl⟩ := List.cons_eq_cons.mp e
      rcases mem_places.mp hq with e | ⟨c', -, q, -, e⟩
      · cases e
        exact ⟨mem_places_root _, hc⟩
      · simp [Place.under] at e
    | cons b bs =>
      obtain ⟨rfl, rfl⟩ := List.cons_eq_cons.mp e
      obtain ⟨hb, hx⟩ := ih c hc hq
      exact ⟨under_mem_places hc hb, hx⟩

/-! ## Levels -/

/-- Some model deeper than a number of levels is no `recursive` leaf. -/
def Exceeds (levels : Nat) (m : Model H) : Prop :=
  ∃ p ∈ m.places, p.model.kind ≠ .atom .recursive ∧ levels < p.level

theorem exceeds_succ {levels : Nat} {m : Model H} :
    m.Exceeds (levels + 1) ↔ ∃ c ∈ m.children, c.Exceeds levels := by
  constructor
  · rintro ⟨p, hp, hk, hl⟩
    rcases mem_places.mp hp with rfl | ⟨c, hc, q, hq, rfl⟩
    · simp [Place.level] at hl
    · rw [Place.level_under] at hl
      exact ⟨c, hc, q, hq, hk, by omega⟩
  · rintro ⟨c, hc, p, hp, hk, hl⟩
    exact ⟨p.under m, under_mem_places hc hp, hk, by rw [Place.level_under]; omega⟩

theorem children_of_kind {m : Model H} {a : Atom} (h : m.kind = .atom a) : m.children = [] := by
  obtain ⟨s, o⟩ := m
  cases s <;> simp [kind, Shape.kind] at h
  rfl

theorem kind_ne_of_unidentified {m : Model H} (hs : m.shape = .atom .unidentified) :
    m.kind ≠ .atom .recursive := by
  rw [kind, hs]
  exact fun hk => Atom.noConfusion (Kind.atom.inj hk)

theorem exceeds_zero {m : Model H} : m.Exceeds 0 ↔ m.kind ≠ .atom .recursive := by
  constructor
  · rintro ⟨p, hp, hk, -⟩ h
    rcases mem_places.mp hp with rfl | ⟨c, hc, -⟩
    · exact hk h
    · rw [children_of_kind h] at hc
      exact absurd hc List.not_mem_nil
  · exact fun h => ⟨_, mem_places_root m, h, Nat.one_pos⟩

theorem Exceeds.mono {k levels : Nat} {m : Model H} (h : m.Exceeds levels) (hk : k ≤ levels) :
    m.Exceeds k := by
  obtain ⟨p, hp, hr, hl⟩ := h
  exact ⟨p, hp, hr, by omega⟩

theorem not_exceeds_of_recursive {levels : Nat} {m : Model H} (h : m.kind = .atom .recursive) :
    ¬ m.Exceeds levels :=
  fun he => exceeds_zero.mp (he.mono (Nat.zero_le _)) h

theorem size_le_sizeAll {m : Model H} {ms : List (Model H)} (h : m ∈ ms) : m.size ≤ sizeAll ms := by
  induction ms with
  | nil => exact absurd h List.not_mem_nil
  | cons n ms ih =>
    rw [sizeAll_cons]
    obtain rfl | h := List.mem_cons.mp h
    · exact Nat.le_add_right ..
    · exact Nat.le_trans (ih h) (Nat.le_add_left ..)

/-- A model has no more levels than models. -/
theorem not_exceeds_size (m : Model H) : ¬ m.Exceeds m.size := by
  induction m using Model.induction with
  | mk s o ih =>
    rw [size_eq, exceeds_succ]
    rintro ⟨c, hc, hx⟩
    exact ih c hc (hx.mono (size_le_sizeAll hc))

end Model

end TypeGraph
