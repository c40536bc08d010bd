import TypeGraph.Model.Traversal
import TypeGraph.Model.Writer
import TypeGraph.Proofs.Json.Value

/-!
# How deep what is written for a model nests

What is nested in a layer nests less deep than the layer (`Shape.depth_children_le`), by two at most
(`Shape.depth_members_le`). So a model of some levels nests at most twice as deep, and one more
(`Model.depth_le_height`).
-/

namespace TypeGraph

universe u

namespace Property

/-- A property nests as deep as its value. -/
theorem depth_members (p : Property Members) :
    (Json.object p.members).depth = (Json.object p.value).depth := by
  simp [members, Json.depth, Json.depthMembers]

end Property

/-- A key type nests at most three deep. -/
theorem KeyType.depth_members_le (k : KeyType) : (Json.object k.members).depth ≤ 3 := by
  cases k <;> decide

/-- An index signature nests one deeper than its two types. -/
theorem Signature.depth_members_le_iff (s : Signature Members) {n : Nat} :
    (Json.object s.members).depth ≤ n + 1 ↔
      (Json.object s.key.members).depth ≤ n ∧ (Json.object s.value).depth ≤ n := by
  rw [Json.depth_object_le_iff, members]
  simp [Json.depth]

theorem Double.depth_toJson (d : Double) : d.toJson.depth = 0 := by
  rw [toJson]
  split
  · split <;> rfl
  · split <;> rfl

theorem Literal.depth_toJson_le (l : Literal) : l.toJson.depth ≤ 1 := by
  cases l with
  | number d => exact Nat.le_trans (Nat.le_of_eq d.depth_toJson) (Nat.zero_le 1)
  | bigint b => exact Nat.le_refl 1
  | string s => exact Nat.zero_le 1
  | boolean b => exact Nat.zero_le 1

namespace Shape

/-- The key types in a layer. -/
def keys {α : Type u} : Shape α → List KeyType
  | index s | objectWithIndex _ s => [s.key]
  | _ => []

theorem depth_members_le_iff (s : Shape Members) {n : Nat} :
    (Json.object s.members).depth ≤ n + 1 ↔ ∀ m ∈ s.payload, m.2.depth ≤ n := by
  rw [Json.depth_object_le_iff, members, List.forall_mem_cons]
  exact and_iff_right (Nat.zero_le n)

/-- The properties of a layer as an array nest one deeper than their values. -/
theorem depth_props_le_iff {ps : List (Property Members)} {n : Nat} :
    (Json.array (ps.map fun p => .object p.members)).depth ≤ n + 1 ↔
      ∀ a ∈ ps.map (·.value), (Json.object a).depth ≤ n := by
  simp only [Json.depth_array_le_iff, List.forall_mem_map, Property.depth_members]

/-- What is nested in a layer nests less deep than the layer, and so do key types. -/
theorem depth_children_le {s : Shape Members} {n : Nat}
    (h : (Json.object s.members).depth ≤ n + 1) :
    (∀ a ∈ s.children, (Json.object a).depth ≤ n) ∧
      ∀ k ∈ s.keys, (Json.object k.members).depth ≤ n := by
  rw [depth_members_le_iff] at h
  cases s with
  | atom a => exact ⟨List.forall_mem_nil _, List.forall_mem_nil _⟩
  | literal l => exact ⟨List.forall_mem_nil _, List.forall_mem_nil _⟩
  | group g as =>
    have has := Nat.le_succ_of_le (h _ (List.mem_singleton_self _))
    rw [Json.depth_array_le_iff, List.forall_mem_map] at has
    exact ⟨has, List.forall_mem_nil _⟩
  | array a => exact ⟨by simpa [payload, children] using h, List.forall_mem_nil _⟩
  | index t =>
    obtain ⟨hkey, hvalue⟩ := by simpa [payload] using h
    exact ⟨by simpa [children] using hvalue, by simpa [keys] using hkey⟩
  | object ps =>
    have hps := Nat.le_succ_of_le (h _ (List.mem_singleton_self _))
    exact ⟨depth_props_le_iff.mp hps, List.forall_mem_nil _⟩
  | objectWithIndex ps t =>
    have hps := Nat.le_succ_of_le (h _ List.mem_cons_self)
    have ht := Nat.le_succ_of_le (h _ (List.mem_cons_of_mem _ (List.mem_singleton_self _)))
    obtain ⟨hkey, hvalue⟩ := t.depth_members_le_iff.mp ht
    refine ⟨List.forall_mem_append.mpr ⟨depth_props_le_iff.mp hps, ?_⟩, ?_⟩
    · simpa using hvalue
    · simpa [keys] using hkey

/-- A layer nests at most two deeper than what is nested in it; key types count as three. -/
theorem depth_members_le {s : Shape Members} {n : Nat}
    (h : ∀ a ∈ s.children, (Json.object a).depth ≤ n) (hk : s.keys ≠ [] → 3 ≤ n) :
    (Json.object s.members).depth ≤ n + 2 := by
  rw [depth_members_le_iff]
  cases s with
  | atom a => exact nofun
  | literal l =>
    exact List.forall_mem_singleton.mpr (Nat.le_trans l.depth_toJson_le (Nat.le_add_left 1 n))
  | group g as =>
    refine List.forall_mem_singleton.mpr ?_
    rw [Json.depth_array_le_iff, List.forall_mem_map]
    exact h
  | array a =>
    have ha := h a (List.mem_singleton_self a)
    exact List.forall_mem_singleton.mpr (Nat.le_succ_of_le ha)
  | index t =>
    have ht := h t.value (List.mem_singleton_self _)
    have hkey := Nat.le_trans t.key.depth_members_le (hk (List.cons_ne_nil _ _))
    exact List.forall_mem_cons.mpr
      ⟨Nat.le_succ_of_le hkey, List.forall_mem_singleton.mpr (Nat.le_succ_of_le ht)⟩
  | object ps => exact List.forall_mem_singleton.mpr (depth_props_le_iff.mpr h)
  | objectWithIndex ps t =>
    simp only [children, List.forall_mem_append, List.forall_mem_singleton] at h
    have hkey := Nat.le_trans t.key.depth_members_le (hk (List.cons_ne_nil _ _))
    exact List.forall_mem_cons.mpr ⟨depth_props_le_iff.mpr h.1,
      List.forall_mem_singleton.mpr (t.depth_members_le_iff.mpr ⟨hkey, h.2⟩)⟩

theorem keys_map {α : Type u} (f : α → Members) (s : Shape α) : (s.map f).keys = s.keys := by
  cases s <;> rfl

/-- A layer with a key type has something nested in it. -/
theorem children_ne_nil {α : Type u} {s : Shape α} (h : s.keys ≠ []) : s.children ≠ [] := by
  cases s with
  | index t => exact List.cons_ne_nil _ _
  | objectWithIndex ps t => simp [children]
  | _ => exact absurd rfl h

end Shape

theorem le_foldl_max (ns : List Nat) (k : Nat) :
    k ≤ ns.foldl max k ∧ ∀ n ∈ ns, n ≤ ns.foldl max k := by
  induction ns generalizing k with
  | nil => exact ⟨Nat.le_refl k, nofun⟩
  | cons n ns ih =>
    obtain ⟨hk, hns⟩ := ih (max k n)
    exact ⟨Nat.le_trans (Nat.le_max_left k n) hk,
      List.forall_mem_cons.mpr ⟨Nat.le_trans (Nat.le_max_right k n) hk, hns⟩⟩

namespace Model

variable {H : Type u}

theorem height_eq (m : Model H) : m.height = (m.children.map height).foldl max 0 + 1 := by
  rw [height, fold_eq, Shape.children_map]
  rfl

theorem height_pos (m : Model H) : 0 < m.height := by
  rw [height_eq]
  exact Nat.succ_pos _

theorem height_lt {m c : Model H} (hc : c ∈ m.children) : c.height < m.height := by
  rw [m.height_eq]
  exact Nat.lt_succ_of_le ((le_foldl_max _ 0).2 _ (List.mem_map_of_mem hc))

/-- What is written for a model nests at most twice as deep as the model has levels, and one
more. -/
theorem depth_le_height (m : Model H) : m.toJson.depth ≤ 2 * m.height + 1 := by
  induction m using induction with
  | mk s o ih =>
    have hpos := height_pos ⟨s, o⟩
    have hlt {c : Model H} (hc : c ∈ s.children) : c.height < (⟨s, o⟩ : Model H).height :=
      height_lt hc
    have hle : (toJson ⟨s, o⟩).depth ≤ 2 * (⟨s, o⟩ : Model H).height - 1 + 2 := by
      rw [toJson, members_eq]
      refine Shape.depth_members_le ?_ fun hk => ?_
      · rw [Shape.children_map, List.forall_mem_map]
        intro c hc
        have hdepth : (Json.object c.members).depth ≤ _ := ih c hc
        have hc' := hlt hc
        omega
      · -- a key type comes with a value type, which is a level of its own
        rw [Shape.keys_map] at hk
        obtain ⟨c, hc⟩ := List.exists_mem_of_ne_nil _ (Shape.children_ne_nil hk)
        have hc' := hlt hc
        have hcpos := c.height_pos
        omega
    omega

end Model

end TypeGraph
