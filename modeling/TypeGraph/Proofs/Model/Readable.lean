import TypeGraph.Model.Writer
import TypeGraph.Proofs.Double.Rounding
import TypeGraph.Proofs.Json.Text

/-!
# What is written for a model is readable JSON

All numbers in what is written read back: a double that is no safe integer is written as it is only
if it is finite. So the text of any model is well-formed JSON that its reader reads to the end
(`Model.readable_toJson`).
-/

namespace TypeGraph

universe u

theorem Double.readable_toJson (d : Double) : d.toJson.Readable := by
  rw [toJson]
  split
  next i hi =>
    split
    next hsafe =>
      refine .scalar fun n hn => ?_
      obtain rfl : Number.integer i = n := by simpa using hn
      have hmax : maxSafeInteger = 2 ^ 53 - 1 := rfl
      constructor <;> omega
    next =>
      refine .scalar fun n hn => ?_
      obtain rfl : Number.float d = n := by simpa using hn
      exact (integer?_eq_some hi).1
  next =>
    split
    next hd =>
      refine .scalar fun n hn => ?_
      obtain rfl : Number.float d = n := by simpa using hn
      exact hd
    next => exact .scalar fun n hn => by cases hn

namespace Json

theorem readable_string (s : String) : (Json.string s).Readable := .scalar fun n hn => by cases hn

theorem readable_boolean (b : Bool) : (Json.boolean b).Readable := .scalar fun n hn => by cases hn

theorem readable_object {ms : List (String × Json)} :
    (object ms).Readable ↔ ∀ m ∈ ms, m.2.Readable := by
  constructor
  · rintro (_ | _ | h)
    exact h
  · exact .object

end Json

open Json

theorem Literal.readable_toJson (l : Literal) : l.toJson.Readable := by
  cases l with
  | string s => exact readable_string s
  | number d => exact d.readable_toJson
  | boolean b => exact readable_boolean b
  | bigint b =>
    rw [toJson, readable_object, BigIntLiteral.members]
    simp [readable_string, readable_boolean]

theorem KeyType.readable_members (k : KeyType) : (Json.object k.members).Readable := by
  have hatom (a : Atom) : (Json.object a.members).Readable := by
    rw [readable_object, Atom.members]
    simp [readable_string]
  cases k with
  | string => exact hatom .string
  | number => exact hatom .number
  | stringOrNumber =>
    rw [readable_object, members]
    simp only [List.forall_mem_cons]
    refine ⟨readable_string _, .array ?_, by simp⟩
    simp [hatom]

theorem Property.readable_members {p : Property Members} (hp : (Json.object p.value).Readable) :
    (Json.object p.members).Readable := by
  rw [readable_object] at hp ⊢
  rw [members, List.forall_mem_cons, List.forall_mem_cons]
  exact ⟨readable_string _, readable_boolean _, hp⟩

theorem Signature.readable_members {s : Signature Members} (hs : (Json.object s.value).Readable) :
    (Json.object s.members).Readable := by
  rw [readable_object, members]
  simp [readable_string, s.key.readable_members, hs]

theorem Shape.readable_members {s : Shape Members}
    (h : ∀ a ∈ s.children, (Json.object a).Readable) : (Json.object s.members).Readable := by
  have hprops {ps : List (Property Members)}
      (hp : ∀ a ∈ ps.map (·.value), (Json.object a).Readable) :
      (Json.array (ps.map fun p => .object p.members)).Readable := by
    refine .array ?_
    rw [List.forall_mem_map] at hp ⊢
    exact fun p hps => Property.readable_members (hp p hps)
  rw [readable_object, members, List.forall_mem_cons]
  refine ⟨readable_string _, ?_⟩
  cases s with
  | atom a => simp [payload]
  | literal l => simpa [payload] using l.readable_toJson
  | group g as =>
    have has : (Json.array (as.map .object)).Readable := .array (List.forall_mem_map.mpr h)
    simpa [payload] using has
  | array a => simpa [payload, children] using h
  | index t =>
    have ht := h t.value (List.mem_singleton_self _)
    simp [payload, t.key.readable_members, ht]
  | object ps => simpa [payload] using hprops h
  | objectWithIndex ps t =>
    simp only [children, List.forall_mem_append, List.forall_mem_singleton] at h
    simp [payload, hprops h.1, Signature.readable_members h.2]

/-- What is written for any model is readable. -/
theorem Model.readable_toJson {H : Type u} (m : Model H) : m.toJson.Readable := by
  induction m using Model.induction with
  | mk s o ih =>
    rw [toJson, members_eq]
    refine Shape.readable_members ?_
    rw [Shape.children_map, List.forall_mem_map]
    exact ih

end TypeGraph
