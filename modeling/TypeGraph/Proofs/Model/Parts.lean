import TypeGraph.Proofs.Model.Readable
import TypeGraph.Proofs.Model.Schema

/-!
# Parts of described documents

What a schema demands of a document it demands of its parts: the value of a field
(`OneField.exists_part`), the elements of an array in their places (`isArrayOf_map_iff`), the fields
of a record (`IsRecord.exists_parts`) and the members of an object (`IsObject.exists_members`). The
parts of a readable document are readable.
-/

namespace TypeGraph

universe u

/-! ## Readable parts -/

namespace Json

theorem Readable.parts {j : Json} (hj : j.Readable) : ∀ i ∈ j.parts, i.Readable := by
  cases hj with
  | scalar h => exact nofun
  | array h => exact h
  | object h => exact List.forall_mem_map.mpr h

theorem Readable.otherFields {ms : Members} (h : (Json.object ms).Readable)
    (first second : String) : (Json.object (TypeGraph.otherFields first second ms)).Readable :=
  readable_object.mpr fun m hm => readable_object.mp h m (List.mem_of_mem_filter hm)

end Json

/-! ## Described parts -/

/-- The value of a field is a part of the object. -/
theorem mem_parts_of_fieldValues {name : String} {ms : Members} {j : Json}
    (hf : fieldValues name ms = [j]) : j ∈ (Json.object ms).parts := by
  have hm := mem_of_mem_fieldValues (hf ▸ List.mem_singleton_self j)
  exact List.mem_map_of_mem (f := (·.2)) hm

/-- What is found in a field is a part of the object. -/
theorem OneField.exists_part {name : String} {p : Json → Prop} {ms : Members}
    (h : OneField name p ms) : ∃ j ∈ (Json.object ms).parts, p j := by
  obtain ⟨j, hj, hp⟩ := h
  exact ⟨j, mem_parts_of_fieldValues hj, hp⟩

theorem OneField.of_eq {name : String} {p : Json → Prop} {ms : Members} {j : Json}
    (h : OneField name p ms) (hf : fieldValues name ms = [j]) : p j := by
  obtain ⟨i, hi, hp⟩ := h
  rw [hf] at hi
  exact (List.cons_eq_cons.mp hi).1 ▸ hp

/-- The elements of an array stand for the values at their places. -/
theorem isArrayOf_map_iff {α : Type u} {P : α → Json → Prop} {as : List α} {j : Json} :
    IsArrayOf (as.map P) j ↔ ∃ js, j = .array js ∧ List.Forall₂ P as js := by
  constructor
  · intro h
    cases j with
    | array js =>
      rw [IsArrayOf, List.forall₂_map_left_iff] at h
      exact ⟨js, rfl, h⟩
    | _ => exact h.elim
  · rintro ⟨js, rfl, h⟩
    rwa [IsArrayOf, List.forall₂_map_left_iff]

theorem exists_mem_zip {α : Type u} {β : Type} {R : α → β → Prop} {as : List α} {bs : List β}
    (h : List.Forall₂ R as bs) {a : α} (ha : a ∈ as) : ∃ b, (a, b) ∈ as.zip bs ∧ R a b := by
  obtain ⟨hl, hzip⟩ := List.forall₂_iff_zip.mp h
  rw [← List.map_fst_zip hl.le] at ha
  obtain ⟨⟨a, b⟩, hab, rfl⟩ := List.mem_map.mp ha
  exact ⟨b, hab, hzip hab⟩

/-- What is found in an array is a part of it. -/
theorem IsArrayOf.exists_part {α : Type u} {as : List α} {P : α → Json → Prop} {j : Json}
    (h : IsArrayOf (as.map P) j) {a : α} (ha : a ∈ as) : ∃ i ∈ j.parts, P a i := by
  obtain ⟨js, rfl, hjs⟩ := isArrayOf_map_iff.mp h
  obtain ⟨i, hi, hP⟩ := exists_mem_zip hjs ha
  exact ⟨i, (List.of_mem_zip hi).2, hP⟩

theorem IsRecord.exists_parts {first second : String} {p q : Json → Prop} {j : Json}
    (h : IsRecord first second p q j) : (∃ i ∈ j.parts, p i) ∧ ∃ i ∈ j.parts, q i := by
  cases j with
  | object ms => exact ⟨h.1.exists_part, h.2.exists_part⟩
  | array js =>
    match js, h with
    | [i, k], h => exact ⟨⟨i, by simp [Json.parts], h.1⟩, ⟨k, by simp [Json.parts], h.2⟩⟩
  | scalar s => exact h.elim

theorem IsObject.exists_members {p : Members → Prop} {j : Json} (h : IsObject p j) :
    ∃ ms, j = .object ms ∧ p ms := by
  cases j with
  | object ms => exact ⟨ms, rfl, h⟩
  | _ => exact h.elim

end TypeGraph
