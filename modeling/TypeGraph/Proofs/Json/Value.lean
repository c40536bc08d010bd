import TypeGraph.Json.Record
import Mathlib.Data.List.Forall2

/-!
# Drafts of values

`Json.draft` is what the text of a value is read as. A reader keeps it if it does not nest too deep
(`Json.toJson_draft`), and notices nothing if it skips it (`Json.skip_draft`).

Readings that can only fail in one way are written `okIf`; that of a list succeeds if it does for
each element (`mapM_okIf`, `mapM_eq_ok_iff`).
-/

namespace TypeGraph

/-! ## Readings -/

section

universe u

variable {ε α β : Type} {γ : Type u}

/-- A reading in two steps succeeds if both do. -/
theorem bind_eq_ok_iff {x : Except ε α} {f : α → Except ε β} {b : β} :
    (x >>= f) = .ok b ↔ ∃ a, x = .ok a ∧ f a = .ok b := by
  cases x with
  | error e => exact ⟨nofun, nofun⟩
  | ok a =>
    constructor
    · exact fun h => ⟨a, rfl, h⟩
    · rintro ⟨_, ⟨⟩, h⟩
      exact h

/-- The reading of a list succeeds if it does for each element. -/
theorem mapM_eq_ok_iff {f : α → Except ε β} {as : List α} {bs : List β} :
    as.mapM f = .ok bs ↔ List.Forall₂ (fun a b => f a = .ok b) as bs := by
  induction as generalizing bs with
  | nil =>
    rw [List.mapM_nil, List.forall₂_nil_left_iff]
    exact ⟨fun h => (Except.ok.inj h).symm, fun h => h ▸ rfl⟩
  | cons a as ih =>
    simp only [List.mapM_cons, bind_eq_ok_iff, ih, List.forall₂_cons_left_iff]
    constructor
    · rintro ⟨b, hb, bs', hbs, ⟨⟩⟩
      exact ⟨b, bs', hb, hbs, rfl⟩
    · rintro ⟨b, bs', hb, hbs, rfl⟩
      exact ⟨b, hb, bs', hbs, rfl⟩

/-- A value under a condition, and an error without it. -/
def okIf (c : Bool) (e : ε) (a : α) : Except ε α := if c then .ok a else .error e

theorem okIf_true (e : ε) (a : α) : okIf true e a = .ok a := rfl

theorem okIf_map (c : Bool) (e : ε) (a : α) (f : α → β) :
    (okIf c e a >>= fun a => .ok (f a)) = okIf c e (f a) := by
  cases c <;> rfl

theorem mapM_okIf {f : α → Except ε β} {k : γ → α} {c : γ → Bool} {g : γ → β} {e : ε}
    {cs : List γ} (h : ∀ a ∈ cs, f (k a) = okIf (c a) e (g a)) :
    (cs.map k).mapM f = okIf (cs.all c) e (cs.map g) := by
  induction cs with
  | nil => rfl
  | cons a cs ih =>
    rw [List.forall_mem_cons] at h
    rw [List.map_cons, List.mapM_cons, h.1, ih h.2, List.all_cons, List.map_cons]
    cases c a <;> cases cs.all c <;> rfl

end

/-! ## Drafts without flaws -/

/-- The draft of a scalar. -/
def Scalar.draft : Scalar → Draft
  | string s => .string ⟨.ok s, none⟩
  | s => .scalar (.ok s) none

namespace Json

mutual

/-- The draft of a value, without flaws. -/
def draft : Json → Draft
  | scalar s => s.draft
  | array js => .array (draftItems js) none
  | object ms => .object (draftMembers ms) none

/-- The drafts of some values. -/
def draftItems : List Json → List Draft
  | [] => []
  | j :: js => draft j :: draftItems js

/-- The drafts of some members. -/
def draftMembers : List (String × Json) → List (Draft.Entry Draft)
  | [] => []
  | (name, j) :: ms => ⟨⟨.ok name, none⟩, draft j⟩ :: draftMembers ms

end

theorem draftItems_eq (js : List Json) : draftItems js = js.map draft := by
  induction js with
  | nil => rfl
  | cons j js ih => rw [draftItems, ih, List.map_cons]

/-- The draft of a member. -/
def draftEntry (m : String × Json) : Draft.Entry Draft := ⟨⟨.ok m.1, none⟩, m.2.draft⟩

theorem draftMembers_eq (ms : List (String × Json)) :
    draftMembers ms = ms.map draftEntry := by
  induction ms with
  | nil => rfl
  | cons m ms ih => rw [draftMembers, ih, List.map_cons, draftEntry]

/-- What holds of a value whenever it holds of its parts holds of every value. -/
theorem induction {motive : Json → Prop} (scalar : ∀ s, motive (.scalar s))
    (array : ∀ js, (∀ j ∈ js, motive j) → motive (.array js))
    (object : ∀ ms, (∀ m ∈ ms, motive m.2) → motive (.object ms)) (j : Json) : motive j := by
  refine @Json.rec motive (fun js => ∀ j ∈ js, motive j) (fun ms => ∀ m ∈ ms, motive m.2)
    (fun m => motive m.2) scalar array object (by simp) (fun j js ih ihs => ?_) (by simp)
    (fun m ms ih ihs => ?_) (fun _ _ ih => ih) j
  · exact List.forall_mem_cons.mpr ⟨ih, ihs⟩
  · exact List.forall_mem_cons.mpr ⟨ih, ihs⟩

/-! ## Depth -/

/-- An array nests one deeper than its items. -/
theorem depth_array_le_iff {js : List Json} {n : Nat} :
    (array js).depth ≤ n + 1 ↔ ∀ j ∈ js, j.depth ≤ n := by
  rw [depth, Nat.succ_le_succ_iff]
  induction js with
  | nil => simp [depthItems]
  | cons j js ih => rw [depthItems, Nat.max_le, ih, List.forall_mem_cons]

/-- An object nests one deeper than its members. -/
theorem depth_object_le_iff {ms : List (String × Json)} {n : Nat} :
    (object ms).depth ≤ n + 1 ↔ ∀ m ∈ ms, m.2.depth ≤ n := by
  rw [depth, Nat.succ_le_succ_iff]
  induction ms with
  | nil => simp [depthMembers]
  | cons m ms ih => rw [depthMembers, Nat.max_le, ih, List.forall_mem_cons]

theorem all_depth_le (ms : List (String × Json)) (n : Nat) :
    (ms.all fun m => decide (m.2.depth ≤ n)) = decide ((object ms).depth ≤ n + 1) := by
  rw [Bool.eq_iff_iff, decide_eq_true_iff, depth_object_le_iff]
  simp

/-- The member that an entry of a draft keeps. -/
def keepEntry (levels : Nat) (e : Draft.Entry Draft) : Except Fault (String × Json) := do
  let name ← e.name.text
  return (name, ← e.value.toJson levels)

/-- A draft without flaws is kept if it does not nest too deep. -/
theorem toJson_draft (levels : Nat) (j : Json) :
    j.draft.toJson levels = okIf (j.depth ≤ levels) .malformed j := by
  induction j using induction generalizing levels with
  | scalar s =>
    rw [depth, decide_eq_true (Nat.zero_le levels), draft]
    cases s <;> simp only [Scalar.draft, Draft.toJson] <;> rfl
  | array js ih =>
    cases levels with
    | zero => rfl
    | succ levels =>
      have hread : (js.map draft).mapM (Draft.toJson levels) = okIf _ .malformed (js.map id) :=
        mapM_okIf fun j hj => ih j hj levels
      rw [List.map_id] at hread
      have hall : (js.all fun j => decide (j.depth ≤ levels)) =
          decide ((array js).depth ≤ levels + 1) := by
        rw [Bool.eq_iff_iff, decide_eq_true_iff, depth_array_le_iff]
        simp
      rw [draft, Draft.toJson, draftItems_eq, hread, hall]
      exact okIf_map _ _ _ _
  | object ms ih =>
    cases levels with
    | zero => rfl
    | succ levels =>
      have hentry : ∀ m ∈ ms, keepEntry levels (draftEntry m) =
          okIf (m.2.depth ≤ levels) .malformed m := fun m hm => by
        rw [keepEntry, draftEntry, ih m hm levels]
        exact okIf_map _ _ _ _
      have hread : (ms.map draftEntry).mapM (keepEntry levels) = okIf _ .malformed (ms.map id) :=
        mapM_okIf hentry
      rw [List.map_id] at hread
      rw [draft, Draft.toJson, draftMembers_eq]
      show ((ms.map draftEntry).mapM (keepEntry levels) >>= _) = _
      rw [hread, all_depth_le]
      exact okIf_map _ _ _ _

/-- Nothing is noticed in a draft without flaws that is skipped. -/
theorem skip_draft (j : Json) : j.draft.skip = .ok () := by
  induction j using induction with
  | scalar s => cases s <;> rfl
  | array js ih =>
    have hskip : Draft.skipItems (draftItems js) = .ok () := by
      induction js with
      | nil => rfl
      | cons j js ihs =>
        rw [List.forall_mem_cons] at ih
        rw [draftItems, Draft.skipItems, ih.1]
        exact ihs ih.2
    rw [draft, Draft.skip, hskip]
    rfl
  | object ms ih =>
    have hskip : Draft.skipEntries (draftMembers ms) = .ok () := by
      induction ms with
      | nil => rfl
      | cons m ms ihs =>
        rw [List.forall_mem_cons] at ih
        rw [draftMembers, Draft.skipEntries, ih.1]
        exact ihs ih.2
    rw [draft, Draft.skip, hskip]
    rfl

/-- The members of an object draft without flaws. -/
theorem members_draftMembers (ms : List (String × Json)) :
    Draft.members (draftMembers ms) none = (ms.map fun m => (m.1, m.2.draft), none) := by
  induction ms with
  | nil => rfl
  | cons m ms ih => 
    rw [draftMembers, Draft.members, ih]
    rfl

end Json

end TypeGraph
