import TypeGraph.Proofs.Model.Places
import TypeGraph.Proofs.Shape
import Mathlib.Data.ENat.Basic

/-!
# The first models of a walk

`Model.keepFirst n` keeps the first `n` models in the order of a walk. A child of a kept model that
is not among them is refused: it becomes an `unidentified` leaf of the same origin.

* `places_keepFirst`, `preorder_keepFirst`: the first `n` models say what they said before, and what
  comes after them was refused;
* `keepFirst_of_le`, `lt_size_keepFirst_iff`: whether anything was refused shows in the size;
* `keepFirst_keepFirst`: keeping fewer afterwards is keeping fewer at once.

A number of models to keep is a `ℕ∞`; `⊤` keeps all.
-/

namespace TypeGraph

universe u

variable {H : Type u}

namespace Model

/-- An `unidentified` leaf in the place of a model. -/
def refused (m : Model H) : Model H := ⟨.atom .unidentified, m.origin⟩

/-- Keeps the first `n` models of a walk and refuses the others; also how many are still to be
kept. -/
def cut : Model H → ℕ∞ → Model H × ℕ∞ :=
  fold fun m s n =>
    if n = 0 then (m.refused, 0)
    else
      let (shape, n) := s.mapAccum (fun run n => run n) (n - 1)
      (⟨shape, m.origin⟩, n)

/-- Keeps the first `n` models of a walk and refuses the others. -/
def keepFirst (n : ℕ∞) (m : Model H) : Model H := (m.cut n).1

/-- Keeps the first `n` models of a walk through one model after the other. -/
def keepFirstAll (n : ℕ∞) (ms : List (Model H)) : List (Model H) := (mapAccum cut ms n).1

theorem cut_eq (m : Model H) (n : ℕ∞) :
    m.cut n =
      if n = 0 then (m.refused, 0)
      else (⟨(m.shape.mapAccum cut (n - 1)).1, m.origin⟩, (m.shape.mapAccum cut (n - 1)).2) := by
  rw [cut, fold_eq, Shape.mapAccum_map]

/-- Every model of the tree uses up one. -/
theorem state_cut (m : Model H) (n : ℕ∞) : (m.cut n).2 = n - m.size := by
  refine (forest_induction (P := fun m => ∀ n : ℕ∞, (m.cut n).2 = n - m.size)
    (Q := fun ms => ∀ n : ℕ∞, (mapAccum cut ms n).2 = n - sizeAll ms)
    ?layer ?nil ?cons).1 m n
  case layer =>
    intro m ih n
    rw [cut_eq]
    split
    · rename_i h0
      rw [h0, zero_tsub]
    · rw [Shape.state_mapAccum, ← children, ih, ← tsub_add_eq_tsub_tsub, size_eq, Nat.cast_add,
        add_comm]
      rfl
  case nil => exact fun n => (tsub_zero n).symm
  case cons =>
    intro m ms hm hms n
    rw [mapAccum_cons, hms, hm, sizeAll_cons, Nat.cast_add, tsub_add_eq_tsub_tsub]

/-! ## One layer -/

@[simp] theorem keepFirst_zero (m : Model H) : m.keepFirst 0 = m.refused := by
  rw [keepFirst, cut_eq, if_pos rfl]

theorem keepFirst_of_ne_zero {n : ℕ∞} (h : n ≠ 0) (m : Model H) :
    m.keepFirst n = ⟨(m.shape.mapAccum cut (n - 1)).1, m.origin⟩ := by
  rw [keepFirst, cut_eq, if_neg h]

@[simp] theorem origin_keepFirst (n : ℕ∞) (m : Model H) : (m.keepFirst n).origin = m.origin := by
  by_cases h : n = 0
  · rw [h, keepFirst_zero]
    rfl
  · rw [keepFirst_of_ne_zero h]

theorem form_keepFirst {n : ℕ∞} (h : n ≠ 0) (m : Model H) :
    (m.keepFirst n).shape.form = m.shape.form := by
  rw [keepFirst_of_ne_zero h, Shape.form_mapAccum]

theorem children_keepFirst {n : ℕ∞} (h : n ≠ 0) (m : Model H) :
    (m.keepFirst n).children = keepFirstAll (n - 1) m.children := by
  rw [keepFirst_of_ne_zero h]
  exact Shape.children_mapAccum ..

@[simp] theorem keepFirstAll_nil (n : ℕ∞) : keepFirstAll n ([] : List (Model H)) = [] := rfl

theorem keepFirstAll_cons (n : ℕ∞) (m : Model H) (ms : List (Model H)) :
    keepFirstAll n (m :: ms) = m.keepFirst n :: keepFirstAll (n - m.size) ms := by
  rw [keepFirstAll, mapAccum_cons, state_cut]
  rfl

/-- With nothing to keep left, every model is refused. -/
theorem keepFirstAll_zero (ms : List (Model H)) : keepFirstAll 0 ms = ms.map refused := by
  induction ms with
  | nil => rfl
  | cons m ms ih => rw [keepFirstAll_cons, keepFirst_zero, zero_tsub, ih, List.map_cons]

theorem eq_of_form_children {m n : Model H} (hf : m.shape.form = n.shape.form)
    (hc : m.children = n.children) (ho : m.origin = n.origin) : m = n := by
  obtain ⟨s, o⟩ := m
  obtain ⟨t, o'⟩ := n
  obtain rfl : o = o' := ho
  obtain rfl : s = t := Shape.ext_children hf hc
  rfl

/-! ## What is refused -/

theorem cast_add_le_iff (a b : ℕ) (n : ℕ∞) : (↑(a + b) : ℕ∞) ≤ n ↔ a ≤ n ∧ b ≤ n - a := by
  cases n with
  | top => simp
  | coe n =>
    rw [← ENat.natCast_sub, Nat.cast_le, Nat.cast_le, Nat.cast_le]
    omega

theorem lt_cast_add_iff (a b : ℕ) (n : ℕ∞) : n < ↑(a + b) ↔ n < a ∨ n - a < b := by
  rw [← not_le, cast_add_le_iff, not_and_or, not_le, not_le]

/-- A model is its root and its children. -/
theorem size_le_iff (m : Model H) (n : ℕ∞) :
    m.size ≤ n ↔ n ≠ 0 ∧ sizeAll m.children ≤ n - 1 := by
  rw [size_eq, add_comm, cast_add_le_iff, Nat.cast_one, Order.one_le_iff_ne_zero]

theorem lt_size_iff (m : Model H) (n : ℕ∞) :
    n < m.size ↔ n = 0 ∨ n - 1 < sizeAll m.children := by
  rw [← not_le, size_le_iff, not_and_or, not_not, not_le]

/-- Where there is room for all models, all are kept. -/
theorem keepFirst_of_le {m : Model H} {n : ℕ∞} (h : m.size ≤ n) : m.keepFirst n = m := by
  refine (forest_induction (P := fun m => ∀ n : ℕ∞, m.size ≤ n → m.keepFirst n = m)
    (Q := fun ms => ∀ n : ℕ∞, sizeAll ms ≤ n → keepFirstAll n ms = ms)
    ?layer ?nil ?cons).1 m n h
  case layer =>
    intro m ih n h
    obtain ⟨h0, hs⟩ := (size_le_iff m n).mp h
    refine eq_of_form_children (form_keepFirst h0 m) ?_ (origin_keepFirst n m)
    rw [children_keepFirst h0, ih _ hs]
  case nil => exact fun _ _ => rfl
  case cons =>
    intro m ms hm hms n h
    rw [sizeAll_cons, cast_add_le_iff] at h
    rw [keepFirstAll_cons, hm n h.1, hms _ h.2]

/-- Where there is not, the refused leaves show it. -/
theorem lt_size_keepFirst {m : Model H} {n : ℕ∞} (h : n < m.size) : n < (m.keepFirst n).size := by
  refine (forest_induction (P := fun m => ∀ n : ℕ∞, n < m.size → n < (m.keepFirst n).size)
    (Q := fun ms => ∀ n : ℕ∞, n < sizeAll ms → n < sizeAll (keepFirstAll n ms))
    ?layer ?nil ?cons).1 m n h
  case layer =>
    intro m ih n h
    rw [lt_size_iff]
    by_cases h0 : n = 0
    · exact .inl h0
    · rw [children_keepFirst h0]
      exact .inr (ih _ (((lt_size_iff m n).mp h).resolve_left h0))
  case nil => exact fun _ h => h
  case cons =>
    intro m ms hm hms n h
    rw [sizeAll_cons, lt_cast_add_iff] at h
    rw [keepFirstAll_cons, sizeAll_cons, lt_cast_add_iff]
    by_cases hn : n < m.size
    · exact .inl (hm n hn)
    · rw [keepFirst_of_le (not_lt.mp hn)]
      exact .inr (hms _ (h.resolve_left hn))

theorem lt_size_keepFirst_iff {m : Model H} {n : ℕ∞} : n < (m.keepFirst n).size ↔ n < m.size := by
  refine ⟨fun h => ?_, lt_size_keepFirst⟩
  by_contra hn
  rw [keepFirst_of_le (not_lt.mp hn)] at h
  exact hn h

/-- A model of which something was refused leaves nothing to keep for the next. -/
theorem tsub_size_keepFirst {m : Model H} {n k : ℕ∞} (h : n ≤ k) :
    n - (m.keepFirst k).size = n - m.size := by
  by_cases hk : k < m.size
  · rw [tsub_eq_zero_of_le (h.trans (lt_size_keepFirst hk).le), tsub_eq_zero_of_le (h.trans hk.le)]
  · rw [keepFirst_of_le (not_lt.mp hk)]

/-- Keeping fewer afterwards is keeping fewer at once. -/
theorem keepFirst_keepFirst {m : Model H} {n k : ℕ∞} (h : n ≤ k) :
    (m.keepFirst k).keepFirst n = m.keepFirst n := by
  refine (forest_induction
    (P := fun m => ∀ n k : ℕ∞, n ≤ k → (m.keepFirst k).keepFirst n = m.keepFirst n)
    (Q := fun ms => ∀ n k : ℕ∞, n ≤ k → keepFirstAll n (keepFirstAll k ms) = keepFirstAll n ms)
    ?layer ?nil ?cons).1 m n k h
  case layer =>
    intro m ih n k h
    by_cases h0 : n = 0
    · rw [h0, keepFirst_zero, keepFirst_zero, refused, refused, origin_keepFirst]
    · have hk : k ≠ 0 := fun e => h0 (nonpos_iff_eq_zero.mp (e ▸ h))
      refine eq_of_form_children ?_ ?_ (by simp)
      · rw [form_keepFirst h0, form_keepFirst hk, form_keepFirst h0]
      · rw [children_keepFirst h0, children_keepFirst hk, children_keepFirst h0,
          ih _ _ (tsub_le_tsub_right h _)]
  case nil => exact fun _ _ _ => rfl
  case cons =>
    intro m ms hm hms n k h
    rw [keepFirstAll_cons, keepFirstAll_cons, keepFirstAll_cons, hm n k h, tsub_size_keepFirst h,
      hms _ _ (tsub_le_tsub_right h _)]

/-! ## Places -/

/-- With the origins of the children the layers of a model and of what is kept of it look alike. -/
theorem map_origin_keepFirst {n : ℕ∞} (h : n ≠ 0) (m : Model H) :
    (m.keepFirst n).shape.map origin = m.shape.map origin := by
  rw [keepFirst_of_ne_zero h]
  exact Shape.map_mapAccum (fun c _ k => origin_keepFirst k c) _

theorem places_refused (m : Model H) : m.refused.places = [⟨[], m.refused⟩] := places_eq _

/-- The first places look as before, and what comes after them was refused. -/
theorem places_keepFirst (m : Model H) (n : ℕ) :
    ((m.keepFirst n).places.take n).map Place.view = (m.places.take n).map Place.view ∧
      ∀ p ∈ (m.keepFirst n).places.drop n, p.model.shape = .atom .unidentified := by
  refine (forest_induction
    (P := fun m => ∀ n : ℕ,
      ((m.keepFirst n).places.take n).map Place.view = (m.places.take n).map Place.view ∧
      ∀ p ∈ (m.keepFirst n).places.drop n, p.model.shape = .atom .unidentified)
    (Q := fun ms => ∀ n : ℕ,
      (((keepFirstAll n ms).flatMap places).take n).map Place.view =
        ((ms.flatMap places).take n).map Place.view ∧
      ∀ p ∈ ((keepFirstAll n ms).flatMap places).drop n, p.model.shape = .atom .unidentified)
    ?layer ?nil ?cons).1 m n
  case layer =>
    intro m ih n
    cases n with
    | zero =>
      rw [Nat.cast_zero, keepFirst_zero, places_refused]
      simp [refused]
    | succ n =>
      have h0 : ((n + 1 : ℕ) : ℕ∞) ≠ 0 := Nat.cast_ne_zero.mpr n.succ_ne_zero
      have h1 : ((n + 1 : ℕ) : ℕ∞) - 1 = n := (ENat.natCast_sub (n + 1) 1).symm
      obtain ⟨ht, hd⟩ := ih n
      rw [places_eq, places_eq m, children_keepFirst h0, h1]
      simp only [List.take_succ_cons, List.drop_succ_cons, List.map_cons, ← List.map_take,
        ← List.map_drop]
      refine ⟨List.cons_eq_cons.mpr ⟨?_, ?_⟩, fun p hp => ?_⟩
      · simp only [Place.view, view, List.map_nil, origin_keepFirst, map_origin_keepFirst h0]
      · simp only [List.map_map, Place.view_comp_under, origin_keepFirst]
        rw [← List.map_map, ht, List.map_map]
      · obtain ⟨q, hq, rfl⟩ := List.mem_map.mp hp
        exact hd q hq
  case nil => exact fun n => ⟨by simp, by simp⟩
  case cons =>
    intro m ms hm hms n
    simp only [keepFirstAll_cons, List.flatMap_cons, List.take_append, List.drop_append,
      List.map_append, length_places]
    by_cases hn : m.size ≤ n
    · obtain ⟨ht, hd⟩ := hms (n - m.size)
      rw [keepFirst_of_le (Nat.cast_le.mpr hn), ← ENat.natCast_sub, ht]
      refine ⟨rfl, fun p hp => ?_⟩
      rw [List.drop_of_length_le (by rwa [length_places]), List.nil_append] at hp
      exact hd p hp
    · obtain ⟨ht, hd⟩ := hm n
      have hk : n < (m.keepFirst n).size :=
        Nat.cast_lt.mp (lt_size_keepFirst (Nat.cast_lt.mpr (not_le.mp hn)))
      rw [ht, show n - m.size = 0 by omega, show n - (m.keepFirst n).size = 0 by omega,
        tsub_eq_zero_of_le (Nat.cast_le.mpr (not_le.mp hn).le), keepFirstAll_zero]
      refine ⟨by simp, fun p hp => ?_⟩
      rcases List.mem_append.mp hp with hp | hp
      · exact hd p hp
      · rw [List.drop_zero, List.mem_flatMap] at hp
        obtain ⟨c, hc, hp⟩ := hp
        obtain ⟨b, -, rfl⟩ := List.mem_map.mp hc
        rw [places_refused, List.mem_singleton] at hp
        rw [hp]
        rfl

/-- Each place of what is kept of a model has its origin and those around it from a place of the
model. -/
theorem mem_places_keepFirst {m : Model H} {n : ℕ∞} {p : Place H}
    (hp : p ∈ (m.keepFirst n).places) :
    ∃ q ∈ m.places, p.above.map (·.origin) = q.above.map (·.origin) ∧
      p.model.origin = q.model.origin := by
  refine (forest_induction
    (P := fun m => ∀ (n : ℕ∞), ∀ p ∈ (m.keepFirst n).places, ∃ q ∈ m.places,
      p.above.map (·.origin) = q.above.map (·.origin) ∧ p.model.origin = q.model.origin)
    (Q := fun ms => ∀ (n : ℕ∞), ∀ c ∈ keepFirstAll n ms, ∀ p ∈ c.places, ∃ d ∈ ms, ∃ q ∈ d.places,
      p.above.map (·.origin) = q.above.map (·.origin) ∧ p.model.origin = q.model.origin)
    ?layer ?nil ?cons).1 m n p hp
  case layer =>
    intro m ih n p hp
    obtain rfl | ⟨c, hc, q, hq, rfl⟩ := mem_places.mp hp
    · exact ⟨_, mem_places_root m, rfl, origin_keepFirst n m⟩
    by_cases h0 : n = 0
    · rw [h0, keepFirst_zero] at hc
      exact absurd hc List.not_mem_nil
    · rw [children_keepFirst h0] at hc
      obtain ⟨d, hd, q', hq', ha, ho⟩ := ih _ c hc q hq
      refine ⟨q'.under m, under_mem_places hd hq', ?_, ho⟩
      rw [Place.above_under, Place.above_under, List.map_append, List.map_append, ha]
      exact congrArg (_ ++ [·]) (origin_keepFirst n m)
  case nil => exact fun n c hc => absurd hc List.not_mem_nil
  case cons =>
    intro m ms hm hms n c hc p hp
    rw [keepFirstAll_cons, List.mem_cons] at hc
    obtain rfl | hc := hc
    · exact ⟨m, List.mem_cons_self .., hm n p hp⟩
    · obtain ⟨d, hd, hq⟩ := hms _ c hc p hp
      exact ⟨d, List.mem_cons_of_mem _ hd, hq⟩

/-- The place with a number in what is kept of a model: it was refused, or looks as before. -/
theorem getElem?_places_keepFirst {m : Model H} {n : ℕ∞} {i : ℕ} {p : Place H}
    (hp : (m.keepFirst n).places[i]? = some p) :
    (p.model.shape = .atom .unidentified ∧ n ≤ i ∧ n < m.size) ∨
      ∃ q ∈ m.places, p.view = q.view := by
  by_cases hs : (m.size : ℕ∞) ≤ n
  · rw [keepFirst_of_le hs] at hp
    exact .inr ⟨p, List.mem_of_getElem? hp, rfl⟩
  rw [not_le] at hs
  obtain ⟨n, rfl⟩ := ENat.ne_top_iff_exists.mp hs.ne_top
  obtain ⟨ht, hd⟩ := m.places_keepFirst n
  by_cases hi : n ≤ i
  · refine .inl ⟨hd p ?_, Nat.cast_le.mpr hi, hs⟩
    rw [← Nat.add_sub_cancel' hi, ← List.getElem?_drop] at hp
    exact List.mem_of_getElem? hp
  · have hv : (((m.keepFirst n).places.take n).map Place.view)[i]? = some p.view := by
      rw [List.getElem?_map, List.getElem?_take_of_lt (not_le.mp hi), hp]
      rfl
    rw [ht, List.getElem?_map, Option.map_eq_some_iff] at hv
    obtain ⟨q, hq, hv⟩ := hv
    exact .inr ⟨q, List.mem_of_mem_take (List.mem_of_getElem? hq), hv.symm⟩

/-- A place that was kept is on the level it had, and has children only if it had some. -/
theorem exists_place_of_keepFirst {m : Model H} {n : ℕ∞} {p : Place H}
    (hp : p ∈ (m.keepFirst n).places) :
    ∃ q ∈ m.places, q.level = p.level ∧ (p.model.children ≠ [] → q.model.children ≠ []) := by
  obtain ⟨i, hi⟩ := List.mem_iff_getElem?.mp hp
  obtain ⟨hs, -⟩ | ⟨q, hq, hv⟩ := getElem?_places_keepFirst hi
  · obtain ⟨q, hq, ha, -⟩ := mem_places_keepFirst hp
    refine ⟨q, hq, (Place.level_eq ha).symm, fun hc => absurd ?_ hc⟩
    rw [children, hs]
    rfl
  · obtain ⟨ha, hv⟩ := Prod.ext_iff.mp hv
    have hc := congrArg (fun v => v.2.children.length) hv
    simp only [Place.view, view, Shape.children_map, List.length_map] at hc
    refine ⟨q, hq, (Place.level_eq ha).symm, fun hp => ?_⟩
    rw [← List.length_pos_iff, children] at hp ⊢
    omega

/-- The first models of a walk say what they said before, and what comes after them was refused. -/
theorem preorder_keepFirst (m : Model H) (n : ℕ) :
    ((m.keepFirst n).preorder.take n).map view = (m.preorder.take n).map view ∧
      ∀ x ∈ (m.keepFirst n).preorder.drop n, x.shape = .atom .unidentified := by
  obtain ⟨ht, hd⟩ := m.places_keepFirst n
  simp only [← map_model_places, ← List.map_take, ← List.map_drop, List.map_map]
  refine ⟨?_, fun x hx => ?_⟩
  · have h := congrArg (List.map Prod.snd) ht
    rwa [List.map_map, List.map_map] at h
  · obtain ⟨p, hp, rfl⟩ := List.mem_map.mp hx
    exact hd p hp

end Model

end TypeGraph
