import TypeGraph.Model.Origin
import TypeGraph.Model.Writer
import TypeGraph.Proofs.Model.KeepFirst

/-!
# Maps of origins keep the tree

A map of origins changes nothing else: the form of each layer, the number of models and their levels
stay. So it does not matter whether origins are mapped before or after the first models are kept
(`mapOrigin_keepFirst`).
-/

namespace TypeGraph

universe u v

variable {H : Type u} {G : Type v}

namespace Model

theorem filterMapOrigin_eq (f : H → Option G) (m : Model H) :
    m.filterMapOrigin f = ⟨m.shape.map (filterMapOrigin f), m.origin.bind f⟩ := by
  rw [filterMapOrigin, fold_eq]

@[simp] theorem kind_filterMapOrigin (f : H → Option G) (m : Model H) :
    (m.filterMapOrigin f).kind = m.kind := by
  rw [filterMapOrigin_eq, kind, kind, Shape.kind_map]

@[simp] theorem children_filterMapOrigin (f : H → Option G) (m : Model H) :
    (m.filterMapOrigin f).children = m.children.map (filterMapOrigin f) := by
  rw [filterMapOrigin_eq, children, children, Shape.children_map]

@[simp] theorem size_filterMapOrigin (f : H → Option G) (m : Model H) :
    (m.filterMapOrigin f).size = m.size := by
  refine (forest_induction (P := fun m => (m.filterMapOrigin f).size = m.size)
    (Q := fun ms => sizeAll (ms.map (filterMapOrigin f)) = sizeAll ms) ?layer ?nil ?cons).1 m
  case layer =>
    intro m ih
    rw [size_eq, size_eq, children_filterMapOrigin, ih]
  case nil => rfl
  case cons =>
    intro m ms hm hms
    rw [List.map_cons, sizeAll_cons, sizeAll_cons, hm, hms]

theorem members_filterMapOrigin (f : H → Option G) (m : Model H) :
    (m.filterMapOrigin f).members = m.members := by
  induction m using Model.induction with
  | mk s o ih =>
    rw [members_eq, members_eq, filterMapOrigin_eq, Shape.map_map]
    exact congrArg _ (Shape.map_congr ih)

theorem text_filterMapOrigin (f : H → Option G) (m : Model H) :
    (m.filterMapOrigin f).text = m.text := by
  rw [text, toJson, members_filterMapOrigin, text, toJson]

theorem kinds_filterMapOrigin (f : H → Option G) (m : Model H) :
    (m.filterMapOrigin f).kinds = m.kinds := by
  rw [kinds_eq, kinds_eq, preorder_of_children (children_filterMapOrigin f), List.map_map]
  exact List.map_congr_left fun x _ => kind_filterMapOrigin f x

/-- Two maps of origins make one. -/
theorem filterMapOrigin_filterMapOrigin {F : Type v} (f : G → Option F) (g : H → Option G)
    (m : Model H) :
    (m.filterMapOrigin g).filterMapOrigin f = m.filterMapOrigin fun h => (g h).bind f := by
  induction m using Model.induction with
  | mk s o ih =>
    rw [filterMapOrigin_eq, filterMapOrigin_eq, filterMapOrigin_eq, Shape.map_map,
      Option.bind_assoc]
    exact congrArg (mk · _) (Shape.map_congr ih)

@[simp] theorem filterMapOrigin_some (m : Model H) : m.filterMapOrigin some = m := by
  induction m using Model.induction with
  | mk s o ih =>
    rw [filterMapOrigin_eq, Option.bind_fun_some]
    exact congrArg (mk · o) ((Shape.map_congr ih).trans (Shape.map_id s))

theorem exceeds_filterMapOrigin (f : H → Option G) {m : Model H} {levels : ℕ} :
    (m.filterMapOrigin f).Exceeds levels ↔ m.Exceeds levels := by
  induction levels generalizing m with
  | zero => rw [exceeds_zero, exceeds_zero, kind_filterMapOrigin]
  | succ levels ih =>
    rw [exceeds_succ, exceeds_succ, children_filterMapOrigin]
    simp only [List.mem_map, exists_exists_and_eq_and, ih]

/-! ## The two uses -/

theorem detach_eq (m : Model H) : (m.detach : Model G) = ⟨m.shape.map detach, none⟩ := by
  rw [detach, filterMapOrigin_eq, Option.bind_fun_none]

theorem mapOrigin_eq (f : H → G) (m : Model H) :
    m.mapOrigin f = ⟨m.shape.map (mapOrigin f), m.origin.map f⟩ := by
  rw [mapOrigin, filterMapOrigin_eq]
  cases m.origin <;> rfl

theorem mapOrigin_mapOrigin {F : Type v} (f : G → F) (g : H → G) (m : Model H) :
    (m.mapOrigin g).mapOrigin f = m.mapOrigin (f ∘ g) := filterMapOrigin_filterMapOrigin ..

@[simp] theorem children_mapOrigin (f : H → G) (m : Model H) :
    (m.mapOrigin f).children = m.children.map (mapOrigin f) := children_filterMapOrigin ..

@[simp] theorem size_mapOrigin (f : H → G) (m : Model H) : (m.mapOrigin f).size = m.size :=
  size_filterMapOrigin ..

theorem exceeds_mapOrigin (f : H → G) {m : Model H} {levels : ℕ} :
    (m.mapOrigin f).Exceeds levels ↔ m.Exceeds levels := exceeds_filterMapOrigin ..

/-- Origins may be mapped before or after the first models are kept. -/
theorem mapOrigin_keepFirst (f : H → G) (m : Model H) (n : ℕ∞) :
    (m.keepFirst n).mapOrigin f = (m.mapOrigin f).keepFirst n := by
  refine (forest_induction
    (P := fun m => ∀ n : ℕ∞, (m.keepFirst n).mapOrigin f = (m.mapOrigin f).keepFirst n)
    (Q := fun ms => ∀ n : ℕ∞,
      (keepFirstAll n ms).map (mapOrigin f) = keepFirstAll n (ms.map (mapOrigin f)))
    ?layer ?nil ?cons).1 m n
  case layer =>
    intro m ih n
    by_cases h0 : n = 0
    · rw [h0, keepFirst_zero, keepFirst_zero, mapOrigin_eq, mapOrigin_eq]
      rfl
    · refine eq_of_form_children ?_ ?_ ?_
      · rw [mapOrigin_eq, Shape.form_map, form_keepFirst h0, form_keepFirst h0, mapOrigin_eq,
          Shape.form_map]
      · rw [children_mapOrigin, children_keepFirst h0, children_keepFirst h0,
          children_mapOrigin, ih]
      · rw [mapOrigin_eq, origin_keepFirst, origin_keepFirst, mapOrigin_eq]
  case nil => exact fun n => rfl
  case cons =>
    intro m ms hm hms n
    simp only [keepFirstAll_cons, List.map_cons, hm, hms, size_mapOrigin]

end Model

end TypeGraph
