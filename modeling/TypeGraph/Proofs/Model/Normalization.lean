import TypeGraph.Proofs.Model.Acceptance
import TypeGraph.Proofs.Model.Parts

/-!
# Reading and writing normalizes

A model that a document describes has finite number literals if the numbers of the document read
back, as those of any text do (`Model.isFinite_of_fits`), and what is written for it nests no deeper
than the document (`Model.depth_le_of_fits`). So whatever way an accepted text is written in, the
text of its model is accepted too, and it is the text of what it reads back as
(`Model.ofText_normalizes`).
-/

namespace TypeGraph

universe u

/-! ## Finite numbers -/

theorem Literal.isFinite_of_fits {l : Literal} {j : Json} (h : l.Fits j) (hj : j.Readable) :
    l.isFinite = true := by
  cases l with
  | number d =>
    cases hj with
    | @scalar s hs =>
      cases s with
      | number n =>
        have hn := hs n rfl
        cases n with
        | integer i =>
          obtain rfl : d = .ofInt i := h
          have hi : i.natAbs ≤ 2 ^ 64 := by
            have := hn.1
            have := hn.2
            omega
          exact Double.isFinite_ofInt hi
        | float e =>
          obtain rfl : d = e := h
          exact hn
      | _ => exact h.elim
    | _ => exact h.elim
  | _ => rfl

section

variable {α : Type u} {P : α → Members → Prop}

/-- Each nested value of a layer that fits readable members fits readable members itself. -/
theorem Shape.exists_readable_of_fits {s : Shape α} {ms : Members} (h : (s.map P).Fits ms)
    (hms : (Json.object ms).Readable) :
    ∀ a ∈ s.children, ∃ ms', (Json.object ms').Readable ∧ P a ms' := by
  have hobject {p : Members → Prop} {j : Json} (hj : j.Readable) (h : IsObject p j) :
      ∃ ms', (Json.object ms').Readable ∧ p ms' := by
    obtain ⟨ms', rfl, hp⟩ := h.exists_members
    exact ⟨ms', hj, hp⟩
  have hprops {ps : List (Property α)} {j : Json} (hj : j.Readable)
      (h : IsArrayOf ((ps.map (·.map P)).map Property.Fits) j) :
      ∀ a ∈ ps.map (·.value), ∃ ms', (Json.object ms').Readable ∧ P a ms' := by
    rw [List.forall_mem_map]
    intro p hp
    rw [List.map_map] at h
    obtain ⟨i, hi, hfits⟩ := h.exists_part hp
    obtain ⟨ms', rfl, -, -, hvalue⟩ := hfits.exists_members
    exact ⟨_, (hj.parts _ hi).otherFields _ _, hvalue⟩
  obtain ⟨-, h⟩ := h
  cases s with
  | atom a => exact nofun
  | literal l => exact nofun
  | group g as =>
    obtain ⟨j, hj, harray⟩ := OneField.exists_part h
    intro a ha
    rw [List.map_map] at harray
    obtain ⟨i, hi, hfits⟩ := harray.exists_part ha
    exact hobject ((hms.parts j hj).parts i hi) hfits
  | array a =>
    obtain ⟨j, hj, hfits⟩ := OneField.exists_part h
    exact List.forall_mem_singleton.mpr (hobject (hms.parts j hj) hfits)
  | index t =>
    obtain ⟨j, hj, hfits⟩ := h.2.exists_part
    exact List.forall_mem_singleton.mpr (hobject (hms.parts j hj) hfits)
  | object ps =>
    obtain ⟨j, hj, harray⟩ := OneField.exists_part h
    exact hprops (hms.parts j hj) harray
  | objectWithIndex ps t =>
    obtain ⟨j, hj, harray⟩ := h.1.exists_part
    obtain ⟨k, hk, hfits⟩ := h.2.exists_part
    obtain ⟨-, i, hi, hvalue⟩ := IsRecord.exists_parts hfits
    exact List.forall_mem_append.mpr ⟨hprops (hms.parts j hj) harray,
      List.forall_mem_singleton.mpr (hobject ((hms.parts k hk).parts i hi) hvalue)⟩

theorem Shape.isFinite_of_fits {s : Shape α} {ms : Members} (h : (s.map P).Fits ms)
    (hms : (Json.object ms).Readable) : s.isFinite = true := by
  cases s with
  | literal l =>
    obtain ⟨j, hj, hl⟩ := OneField.exists_part h.2
    exact l.isFinite_of_fits hl (hms.parts j hj)
  | _ => rfl

end

/-- A model that readable members describe has finite number literals alone. -/
theorem Model.isFinite_of_fits {H : Type u} {m : Model H} {ms : Members} (h : m.Fits ms)
    (hms : (Json.object ms).Readable) : m.isFinite = true := by
  induction m using induction generalizing ms with
  | mk s o ih =>
    have hs := ((fits_iff _ _).mp h).2
    rw [isFinite_eq, Bool.and_eq_true, List.all_eq_true]
    refine ⟨Shape.isFinite_of_fits hs hms, fun c hc => ?_⟩
    obtain ⟨ms', hms', hfits⟩ := Shape.exists_readable_of_fits hs hms c hc
    exact ih c hc hfits hms'

/-! ## Depth -/

theorem Json.depth_lt_of_mem_parts {i j : Json} (hi : i ∈ j.parts) : i.depth < j.depth := by
  cases j with
  | scalar s => cases hi
  | array js => exact Nat.lt_succ_of_le (depth_parts_le (n := depthItems js) le_rfl i hi)
  | object ms => exact Nat.lt_succ_of_le (depth_parts_le (n := depthMembers ms) le_rfl i hi)

theorem Literal.depth_le_of_fits {l : Literal} {j : Json} (h : l.Fits j) :
    l.toJson.depth ≤ j.depth := by
  cases l with
  | number d => exact (Nat.le_of_eq d.depth_toJson).trans (Nat.zero_le _)
  | bigint b =>
    obtain ⟨⟨i, hi, -⟩, -⟩ := IsRecord.exists_parts h
    exact Nat.succ_le_of_lt (Nat.lt_of_le_of_lt (Nat.zero_le _) (Json.depth_lt_of_mem_parts hi))
  | string s => exact Nat.zero_le _
  | boolean b => exact Nat.zero_le _

/-- A key type is written no deeper than it was given. -/
theorem KeyType.depth_le_of_fits {k : KeyType} {ms : Members} (h : k.Fits ms) :
    (Json.object k.members).depth ≤ (Json.object ms).depth := by
  have hone : 1 ≤ (Json.object ms).depth := Nat.succ_le_succ (Nat.zero_le _)
  cases k with
  | string => exact hone
  | number => exact hone
  | stringOrNumber =>
    -- the array of the two kinds, and one of these, are nested in the object
    have hpair {p q : Members → Prop} {j : Json} (h : IsArrayOf [IsObject p, IsObject q] j) :
        2 ≤ j.depth := by
      obtain ⟨a, b, rfl, ha, -⟩ := isArrayOf_pair_iff.mp h
      obtain ⟨ms', rfl, -⟩ := ha.exists_members
      have hlt := Json.depth_lt_of_mem_parts (i := .object ms') (j := .array [.object ms', b])
        List.mem_cons_self
      have hpos : 1 ≤ (Json.object ms').depth := Nat.succ_le_succ (Nat.zero_le _)
      omega
    obtain ⟨j, hj, harray⟩ := h.2.exists_part
    have hlt := Json.depth_lt_of_mem_parts hj
    have htwo : 2 ≤ j.depth := harray.elim hpair hpair
    exact Nat.lt_of_le_of_lt htwo hlt

section

variable {α : Type u} {P : α → Members → Prop} {f : α → Members}

/-- An index signature is written no deeper than it was given if its value type is. -/
theorem Signature.depth_le_of_fits {s : Signature α} {j : Json}
    (hf : ∀ ms, P s.value ms → (Json.object (f s.value)).depth ≤ (Json.object ms).depth)
    (h : (s.map P).Fits j) : (Json.object (s.map f).members).depth ≤ j.depth := by
  obtain ⟨⟨i, hi, hkey⟩, k, hk, hvalue⟩ := IsRecord.exists_parts h
  obtain ⟨ms, rfl, hkey⟩ := hkey.exists_members
  obtain ⟨ms', rfl, hvalue⟩ := hvalue.exists_members
  have hi := Json.depth_lt_of_mem_parts hi
  have hk := Json.depth_lt_of_mem_parts hk
  obtain ⟨n, hn⟩ : ∃ n, j.depth = n + 1 := ⟨j.depth - 1, by omega⟩
  rw [hn, (s.map f).depth_members_le_iff]
  have hkeyDepth := (KeyType.depth_le_of_fits hkey).trans_lt hi
  have hvalueDepth := (hf ms' hvalue).trans_lt hk
  rw [hn] at hkeyDepth hvalueDepth
  exact ⟨Nat.le_of_lt_succ hkeyDepth, Nat.le_of_lt_succ hvalueDepth⟩

/-- An array is written no deeper than it was given if its items are. -/
theorem depth_array_le_of_fits {β : Type u} {as : List β} {Q : β → Json → Prop} {g : β → Json}
    {j : Json} (hg : ∀ a ∈ as, ∀ i, Q a i → (g a).depth ≤ i.depth) (h : IsArrayOf (as.map Q) j) :
    (Json.array (as.map g)).depth ≤ j.depth := by
  obtain ⟨n, hn⟩ : ∃ n, j.depth = n + 1 := by
    cases j with
    | array js => exact ⟨_, rfl⟩
    | _ => exact h.elim
  rw [hn, Json.depth_array_le_iff, List.forall_mem_map]
  intro a ha
  obtain ⟨i, hi, hfits⟩ := h.exists_part ha
  have hlt := (hg a ha i hfits).trans_lt (Json.depth_lt_of_mem_parts hi)
  rw [hn] at hlt
  exact Nat.le_of_lt_succ hlt

/-- Properties are written no deeper than they were given if their values are. -/
theorem depth_props_le_of_fits {ps : List (Property α)} {j : Json}
    (hf : ∀ a ∈ ps.map (·.value), ∀ ms, P a ms →
      (Json.object (f a)).depth ≤ (Json.object ms).depth)
    (h : IsArrayOf ((ps.map (·.map P)).map Property.Fits) j) :
    (Json.array ((ps.map (·.map f)).map fun p => .object p.members)).depth ≤ j.depth := by
  rw [List.map_map] at h ⊢
  refine depth_array_le_of_fits (fun p hp i hfits => ?_) h
  obtain ⟨ms, rfl, -, -, hvalue⟩ := hfits.exists_members
  have hdepth : (Json.object (p.map f).members).depth = (Json.object (f p.value)).depth :=
    (p.map f).depth_members
  have hvalueDepth := hf p.value (List.mem_map_of_mem hp) _ hvalue
  exact hdepth.trans_le (hvalueDepth.trans (depth_otherFields_le le_rfl _ _))

/-- A layer is written no deeper than it was given if what is nested in it is. -/
theorem Shape.depth_le_of_fits {s : Shape α} {ms : Members}
    (hf : ∀ a ∈ s.children, ∀ ms, P a ms → (Json.object (f a)).depth ≤ (Json.object ms).depth)
    (h : (s.map P).Fits ms) :
    (Json.object (s.map f).members).depth ≤ (Json.object ms).depth := by
  have hobject {a : α} (ha : a ∈ s.children) {j : Json} (h : IsObject (P a) j) :
      (Json.object (f a)).depth ≤ j.depth := by
    obtain ⟨ms', rfl, hp⟩ := h.exists_members
    exact hf a ha ms' hp
  obtain ⟨n, hn⟩ : ∃ n, (Json.object ms).depth = n + 1 := ⟨_, rfl⟩
  -- each field of the payload is written no deeper than the field it was read from
  have hfield {i j : Json} (hj : j ∈ (Json.object ms).parts) (hij : i.depth ≤ j.depth) :
      i.depth ≤ n := by
    have hlt := hij.trans_lt (Json.depth_lt_of_mem_parts hj)
    rw [hn] at hlt
    exact Nat.le_of_lt_succ hlt
  rw [hn, depth_members_le_iff]
  obtain ⟨-, h⟩ := h
  cases s with
  | atom a => exact nofun
  | literal l =>
    obtain ⟨j, hj, hl⟩ := OneField.exists_part h
    exact List.forall_mem_singleton.mpr (hfield hj (Literal.depth_le_of_fits hl))
  | group g as =>
    obtain ⟨j, hj, harray⟩ := OneField.exists_part h
    rw [List.map_map] at harray
    have hdepth := depth_array_le_of_fits (g := fun a => .object (f a))
      (fun a ha i => hobject ha) harray
    refine List.forall_mem_singleton.mpr (hfield hj ?_)
    rw [List.map_map]
    exact hdepth
  | array a =>
    obtain ⟨j, hj, hfits⟩ := OneField.exists_part h
    exact List.forall_mem_singleton.mpr (hfield hj (hobject (List.mem_singleton_self a) hfits))
  | index t =>
    obtain ⟨⟨i, hi, hkey⟩, k, hk, hvalue⟩ := And.intro h.1.exists_part h.2.exists_part
    obtain ⟨ms', rfl, hkey⟩ := hkey.exists_members
    exact List.forall_mem_cons.mpr ⟨hfield hi (KeyType.depth_le_of_fits hkey),
      List.forall_mem_singleton.mpr (hfield hk (hobject (List.mem_singleton_self _) hvalue))⟩
  | object ps =>
    obtain ⟨j, hj, harray⟩ := OneField.exists_part h
    exact List.forall_mem_singleton.mpr (hfield hj (depth_props_le_of_fits hf harray))
  | objectWithIndex ps t =>
    simp only [children, List.forall_mem_append, List.forall_mem_singleton] at hf
    obtain ⟨j, hj, harray⟩ := h.1.exists_part
    obtain ⟨k, hk, hfits⟩ := h.2.exists_part
    exact List.forall_mem_cons.mpr ⟨hfield hj (depth_props_le_of_fits hf.1 harray),
      List.forall_mem_singleton.mpr (hfield hk (Signature.depth_le_of_fits hf.2 hfits))⟩

end

/-- What is written for a model nests no deeper than a document that describes it. -/
theorem Model.depth_le_of_fits {H : Type u} {m : Model H} {ms : Members} (h : m.Fits ms) :
    m.toJson.depth ≤ (Json.object ms).depth := by
  induction m using induction generalizing ms with
  | mk s o ih =>
    rw [toJson, members_eq]
    exact Shape.depth_le_of_fits (fun a ha ms' hfits => ih a ha hfits) ((fits_iff _ _).mp h).2

/-! ## Texts -/

/-- The text of what was read from a text nests no deeper, is accepted itself, and reads back as a
model that says the same and has the same text. -/
theorem Model.ofText_normalizes {H : Type} {text : String} {m : Model H} (h : ofText text = .ok m) :
    (∃ i j, Spells m.text.toList i ∧ Spells text.toList j ∧ i.depth ≤ j.depth) ∧
      ∃ n : Model H, ofText m.text = .ok n ∧ n.same m = true ∧ n.text = m.text := by
  obtain ⟨ms, hspells, hdepth, hfits⟩ := (ofText_eq_ok_iff text m).mp h
  have hle := depth_le_of_fits hfits
  have hfinite := isFinite_of_fits hfits hspells.readable
  have hwritten : Spells m.text.toList m.toJson := by
    rw [Model.text, Json.write, String.toList_ofList]
    exact m.readable_toJson.spells
  refine ⟨⟨m.toJson, .object ms, hwritten, hspells, hle⟩, m.readBack, ?_, readBack_same hfinite, ?_⟩
  · rw [ofText_text, if_pos (hle.trans hdepth), hfinite, okIf_true]
  · rw [Model.text, Model.text, Model.toJson, Model.toJson, m.members_readBack]

/-- A zero keeps its sign where it is read, and loses it where it is written. -/
theorem Model.ofText_normalizes_negativeZero :
    (ofText "\x7b\"value\":-0e9,\"kind\":8\x7d" : Except Problem (Model Unit)) =
        .ok (.ofLiteral (.number (.ofMagnitude true 0))) ∧
      ∃ n : Model Unit,
        ofText (ofLiteral (H := Unit) (.number (.ofMagnitude true 0))).text = .ok n ∧
          n.text = "\x7b\"kind\":\"numberLiteral\",\"value\":0\x7d" := by
  have hread : (ofText "\x7b\"value\":-0e9,\"kind\":8\x7d" : Except Problem (Model Unit)) =
      .ok (.ofLiteral (.number (.ofMagnitude true 0))) := rfl
  obtain ⟨-, n, hn, -, htext⟩ := ofText_normalizes hread
  exact ⟨hread, n, hn, htext.trans (by decide +kernel)⟩

end TypeGraph
