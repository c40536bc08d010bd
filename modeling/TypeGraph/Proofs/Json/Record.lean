import TypeGraph.Proofs.Json.Value

/-!
# Records that read back

`View.Shows` says that a view sees the layers of values as they are, in memory or as the drafts of
their texts (`View.shows_json`, `View.shows_draft`). A record that was written with each field once
gives these fields back, in front of other members or behind one: two of them through any view
(`View.readFields_before`, `View.readFields_behind`), one alone in memory (`View.readField_before`,
`View.readField_behind`).
-/

namespace TypeGraph

namespace View

variable {J : Type} {α β γ : Type}

/-! ## Views of written values -/

/-- What `encode` makes of a value, the view sees as that value; it keeps those that `keeps`
allows. -/
structure Shows (v : View J) (encode : Json → J) (keeps : Json → Bool) : Prop where
  scalar (s : Scalar) : v.layer (encode (.scalar s)) = .ok (.scalar s)
  object (ms : List (String × Json)) :
    v.layer (encode (.object ms)) = .ok (.map (ms.map fun m => (m.1, encode m.2)) none)
  keep (j : Json) : v.keep (encode j) = okIf (keeps j) (.fault .malformed) j
  skip (j : Json) : v.skip (encode j) = .ok ()

/-- Values in memory are seen as they are. -/
theorem shows_json : Shows Json.view id fun _ => true where
  scalar _ := rfl
  object ms := by
    have hid : ms.map (fun m => (m.1, id m.2)) = ms := List.map_id ms
    rw [hid]
    rfl
  keep _ := rfl
  skip _ := rfl

/-- Drafts without flaws are seen as their values; those that nest too deep are not kept. -/
theorem shows_draft :
    Shows Draft.view Json.draft fun j => j.depth ≤ maxNesting - 1 where
  scalar s := by cases s <;> rfl
  object ms := by
    simp only [Json.draft, Draft.view, Json.members_draftMembers]
  keep j := by
    simp only [Draft.view, Json.toJson_draft]
    cases decide (j.depth ≤ maxNesting - 1) <;> rfl
  skip j := by
    simp only [Draft.view, Json.skip_draft]
    rfl

namespace Shows

variable {v : View J} {encode : Json → J} {keeps : Json → Bool}

theorem text (h : Shows v encode keeps) (s : String) : v.text (encode (.string s)) = .ok s := by
  rw [View.text, h.scalar]
  rfl

theorem truth (h : Shows v encode keeps) (b : Bool) : v.truth (encode (.boolean b)) = .ok b := by
  rw [View.truth, h.scalar]
  rfl

end Shows

/-- The items of an array in memory are read one by one. -/
theorem items_array (read : Json → Except Problem α) (js : List Json) :
    Json.view.items read (.array js) = js.mapM read := by
  show (js.mapM read >>= fun found => .ok found) = _
  cases js.mapM read <;> rfl

/-! ## Fields -/

section

variable {first second : String} {readFirst : J → Except Problem α}
  {readSecond : J → Except Problem β} {readOther : String → J → Except Problem γ}

/-- Two fields behind another member. -/
theorem readFields_behind {other : String} {i j k : J} {c : γ} (hf : other ≠ first)
    (hs : other ≠ second) (hne : second ≠ first) (hc : readOther other i = .ok c) :
    readFields first second readFirst readSecond readOther none none
        [(other, i), (first, j), (second, k)] none = do
      let a ← readFirst j
      let b ← readSecond k
      return (a, b, [c]) := by
  simp only [readFields, if_neg hf, if_neg hs, if_neg hne, if_true, once, hc]
  cases readFirst j with
  | error e => rfl
  | ok a => cases readSecond k <;> rfl

/-- Two fields in front of other members. -/
theorem readFields_before {j k : J} {ms : List (String × J)} {flaw : Option Fault}
    (hne : second ≠ first) :
    readFields first second readFirst readSecond readOther none none
        ((first, j) :: (second, k) :: ms) flaw = (do
      let a ← readFirst j
      let b ← readSecond k
      readFields first second readFirst readSecond readOther (some a) (some b) ms flaw) := by
  simp only [readFields, if_neg hne, if_true, once]
  cases readFirst j with
  | error e => rfl
  | ok a => cases readSecond k <;> rfl

/-- Members that are none of the two fields are kept behind both. -/
theorem Shows.readFields_keep {v : View J} {encode : Json → J} {keeps : Json → Bool}
    (h : Shows v encode keeps) {a : α} {b : β} {ms : List (String × Json)}
    (hne : ∀ m ∈ ms, m.1 ≠ first ∧ m.1 ≠ second) :
    readFields first second readFirst readSecond (fun name j => do return (name, ← v.keep j))
        (some a) (some b) (ms.map fun m => (m.1, encode m.2)) none =
      okIf (ms.all fun m => keeps m.2) (.fault .malformed) (a, b, ms) := by
  induction ms with
  | nil => rfl
  | cons m ms ih =>
    rw [List.forall_mem_cons] at hne
    rw [List.map_cons, readFields, if_neg hne.1.1, if_neg hne.1.2, h.keep, ih hne.2, List.all_cons]
    cases keeps m.2 <;> cases ms.all (fun m => keeps m.2) <;> rfl

/-- The one field behind another member. -/
theorem readField_behind {name other : String} {read : Json → Except Problem α} {i j : Json}
    (hne : other ≠ name) : readField name read none [(other, i), (name, j)] = read j := by
  simp only [readField, if_neg hne, if_true, once]
  cases read j <;> rfl

/-- The field in front of other members. -/
theorem readField_before {name : String} {read : Json → Except Problem α} {j : Json}
    {ms : List (String × Json)} (hne : ∀ m ∈ ms, m.1 ≠ name) :
    readField name read none ((name, j) :: ms) = read j := by
  have hrest (a : α) : readField name read (some a) ms = .ok a := by
    induction ms with
    | nil => rfl
    | cons m ms ih =>
      rw [List.forall_mem_cons] at hne
      rw [readField, if_neg hne.1]
      exact ih hne.2
  simp only [readField, if_true, once]
  cases h : read j with
  | error e => rfl
  | ok a => exact hrest a

end

end View

end TypeGraph
