import TypeGraph.Proofs.Json.Value

/-!
# What a reader of values in memory accepts

`Reads found P` says that a reading is decided by `P`: it gives just the values for which `P` holds,
and where there are none it is refused as a mismatch, never as a flaw of a text. Readings of parts
are put together with it: what comes first decides first (`Reads.bind`), a list is read if all its
elements are (`reads_mapM`), and a record if each of its fields is there once (`reads_readField`,
`reads_readFields`, `reads_record`).
-/

namespace TypeGraph

open View

variable {α β γ : Type}

/-! ## Readings decided by a relation -/

/-- A reading that gives just the values for which `P` holds, and is else refused as a mismatch. -/
structure Reads (found : Except Problem α) (P : α → Prop) : Prop where
  ok_iff (a : α) : found = .ok a ↔ P a
  ne_fault (f : Fault) : found ≠ .error (.fault f)

namespace Reads

variable {found : Except Problem α} {P Q : α → Prop}

theorem congr (h : Reads found P) (hPQ : ∀ a, P a ↔ Q a) : Reads found Q :=
  ⟨fun a => (h.ok_iff a).trans (hPQ a), h.ne_fault⟩

theorem ok (a : α) : Reads (.ok a) (· = a) :=
  ⟨fun b => by rw [Except.ok.injEq]; exact eq_comm, nofun⟩

theorem refuse (m : Mismatch) (h : ∀ a, ¬ P a) : Reads (refuse m) P :=
  ⟨fun a => ⟨nofun, fun ha => absurd ha (h a)⟩, nofun⟩

/-- What is read first decides first. -/
theorem bind {read : α → Except Problem β} {R : α → β → Prop} (h : Reads found P)
    (hread : ∀ a, P a → Reads (read a) (R a)) :
    Reads (found >>= read) fun b => ∃ a, P a ∧ R a b := by
  constructor
  · intro b
    rw [bind_eq_ok_iff]
    refine exists_congr fun a => ?_
    rw [h.ok_iff a]
    exact and_congr_right fun ha => (hread a ha).ok_iff b
  · intro f hf
    cases hx : found with
    | error p =>
      rw [hx] at hf
      exact h.ne_fault f (hx.trans (congrArg Except.error (Except.error.inj hf)))
    | ok a =>
      rw [hx] at hf
      exact (hread a ((h.ok_iff a).mp hx)).ne_fault f hf

theorem map (h : Reads found P) (f : α → β) :
    Reads (found >>= fun a => .ok (f a)) fun b => ∃ a, P a ∧ b = f a :=
  h.bind fun a _ => ok (f a)

end Reads

/-- A list is read if all its elements are. -/
theorem reads_mapM {read : γ → Except Problem α} {P : α → γ → Prop} {js : List γ}
    (h : ∀ j ∈ js, Reads (read j) fun a => P a j) :
    Reads (js.mapM read) fun as => List.Forall₂ P as js := by
  induction js with
  | nil =>
    refine (Reads.ok []).congr fun as => ?_
    rw [List.forall₂_nil_right_iff]
  | cons j js ih =>
    rw [List.forall_mem_cons] at h
    rw [List.mapM_cons]
    refine (h.1.bind fun a _ => (ih h.2).map (a :: ·)).congr fun as => ?_
    rw [List.forall₂_cons_right_iff]
    constructor
    · rintro ⟨a, ha, as', has, rfl⟩
      exact ⟨a, as', ha, has, rfl⟩
    · rintro ⟨a, as', ha, has, rfl⟩
      exact ⟨a, ha, as', has, rfl⟩

/-! ## Values of one type -/

/-- An array of values as demanded one by one. -/
def IsArrayOf (ps : List (Json → Prop)) : Json → Prop
  | .array js => List.Forall₂ (fun p j => p j) ps js
  | _ => False

/-- A number, as an integer that is rounded or as a double. -/
def Double.Fits (d : Double) : Json → Prop
  | .scalar (.number (.integer i)) => d = .ofInt i
  | .scalar (.number (.float e)) => d = e
  | _ => False

theorem reads_text (j : Json) : Reads (Json.view.text j) fun s => j = .string s := by
  cases j with
  | scalar s =>
    cases s with
    | string s => exact (Reads.ok s).congr fun t => by simp [eq_comm]
    | _ => exact .refuse _ fun t => by simp
  | _ => exact .refuse _ fun t => by simp

theorem reads_truth (j : Json) : Reads (Json.view.truth j) fun b => j = .boolean b := by
  cases j with
  | scalar s =>
    cases s with
    | boolean b => exact (Reads.ok b).congr fun c => by simp [eq_comm]
    | _ => exact .refuse _ fun c => by simp
  | _ => exact .refuse _ fun c => by simp

theorem reads_double (j : Json) : Reads (Json.view.double j) fun d => d.Fits j := by
  cases j with
  | scalar s =>
    cases s with
    | number n =>
      cases n with
      | integer i => exact Reads.ok _
      | float d => exact Reads.ok d
    | _ => exact .refuse _ fun d => id
  | _ => exact .refuse _ fun d => id

/-- The parts directly inside a value. -/
def Json.parts : Json → List Json
  | .scalar _ => []
  | .array js => js
  | .object ms => ms.map (·.2)

theorem Json.depth_parts_le {j : Json} {n : Nat} (h : j.depth ≤ n + 1) :
    ∀ i ∈ j.parts, i.depth ≤ n := by
  cases j with
  | scalar s => exact nofun
  | array js => exact depth_array_le_iff.mp h
  | object ms => exact List.forall_mem_map.mpr (depth_object_le_iff.mp h)

theorem reads_items {read : Json → Except Problem α} {P : α → Json → Prop} {j : Json}
    (h : ∀ i ∈ j.parts, Reads (read i) fun a => P a i) :
    Reads (Json.view.items read j) fun as => IsArrayOf (as.map P) j := by
  cases j with
  | array js =>
    have hread := (reads_mapM h).map id
    refine hread.congr fun as => ?_
    rw [IsArrayOf, List.forall₂_map_left_iff]
    simp [Json.parts]
  | _ => exact .refuse _ fun as => id

/-! ## Fields -/

/-- The values of the members of one name. -/
def fieldValues (name : String) (ms : List (String × γ)) : List γ :=
  ms.filterMap fun m => if m.1 = name then some m.2 else none

/-- The members of any but two names. -/
def otherFields (first second : String) (ms : List (String × γ)) : List (String × γ) :=
  ms.filter fun m => m.1 ≠ first ∧ m.1 ≠ second

/-- Just one of the members has this name, and its value is as demanded. -/
def OneField (name : String) (p : γ → Prop) (ms : List (String × γ)) : Prop :=
  ∃ j, fieldValues name ms = [j] ∧ p j

theorem fieldValues_cons (name : String) (m : String × γ) (ms : List (String × γ)) :
    fieldValues name (m :: ms) =
      if m.1 = name then m.2 :: fieldValues name ms else fieldValues name ms := by
  rw [fieldValues, List.filterMap_cons]
  split_ifs <;> rfl

theorem fieldValues_cons_self (name : String) (j : γ) (ms : List (String × γ)) :
    fieldValues name ((name, j) :: ms) = j :: fieldValues name ms := by
  simp [fieldValues]

theorem fieldValues_cons_of_ne {name field : String} (hne : field ≠ name) (j : γ)
    (ms : List (String × γ)) : fieldValues name ((field, j) :: ms) = fieldValues name ms := by
  simp [fieldValues, hne]

theorem mem_of_mem_fieldValues {name : String} {ms : List (String × γ)} {j : γ}
    (h : j ∈ fieldValues name ms) : (name, j) ∈ ms := by
  obtain ⟨⟨field, k⟩, hm, hj⟩ := List.mem_filterMap.mp h
  split at hj
  next hname =>
    cases hj
    exact hname ▸ hm
  next => cases hj

/-- What fills a field: what was met before if no value follows, and else the one that follows. -/
def Fills (P : α → γ → Prop) : Option α → List γ → α → Prop
  | some b, js, a => js = [] ∧ a = b
  | none, js, a => ∃ j, js = [j] ∧ P a j

theorem fills_cons (P : α → γ → Prop) (seen : Option α) (j : γ) (js : List γ) (a : α) :
    Fills P seen (j :: js) a ↔ seen = none ∧ ∃ b, P b j ∧ Fills P (some b) js a := by
  cases seen with
  | some c => simp [Fills]
  | none =>
    constructor
    · rintro ⟨k, hk, ha⟩
      cases hk
      exact ⟨rfl, a, ha, rfl, rfl⟩
    · rintro ⟨-, b, hb, rfl, rfl⟩
      exact ⟨j, rfl, hb⟩

theorem reads_required (P : α → γ → Prop) (name : String) (seen : Option α) :
    Reads (required name seen) (Fills P seen []) := by
  cases seen with
  | none => exact .refuse _ fun a => by simp [Fills]
  | some b => exact (Reads.ok b).congr fun a => by simp [Fills]

/-- A field is read when it is met first, and what is read goes on with it. -/
theorem reads_once {P : α → γ → Prop} {R : α → β → Prop} {read : Except Problem α}
    {more : Option α → Except Problem β} {name : String} {seen : Option α} {j : γ}
    (h : Reads read fun a => P a j) (hmore : ∀ a, P a j → Reads (more (some a)) (R a)) :
    Reads (once name seen read >>= more) fun b => seen = none ∧ ∃ a, P a j ∧ R a b := by
  cases seen with
  | some c => exact .refuse _ fun b hb => by cases hb.1
  | none =>
    have hbind := h.bind hmore
    refine Reads.congr (P := fun b => ∃ a, P a j ∧ R a b) ?_ fun b => by simp
    cases read <;> exact hbind

/-- The one field of a record is read if it is there once. -/
theorem reads_readField {name : String} {read : Json → Except Problem α} {P : α → Json → Prop}
    {seen : Option α} {ms : List (String × Json)}
    (h : ∀ j ∈ fieldValues name ms, Reads (read j) fun a => P a j) :
    Reads (readField name read seen ms) (Fills P seen (fieldValues name ms)) := by
  induction ms generalizing seen with
  | nil => exact reads_required P name seen
  | cons m ms ih =>
    obtain ⟨field, j⟩ := m
    rw [readField]
    by_cases hname : field = name
    · subst hname
      rw [fieldValues_cons_self] at h ⊢
      rw [List.forall_mem_cons] at h
      rw [if_pos rfl]
      exact (reads_once h.1 fun a _ => ih h.2).congr fun b => (fills_cons P seen j _ b).symm
    · rw [fieldValues_cons_of_ne hname] at h ⊢
      rw [if_neg hname]
      exact ih h

theorem reads_oneField {name : String} {read : Json → Except Problem α} {P : α → Json → Prop}
    {ms : List (String × Json)}
    (h : ∀ j ∈ fieldValues name ms, Reads (read j) fun a => P a j) :
    Reads (readField name read none ms) fun a => OneField name (P a) ms :=
  reads_readField h

theorem otherFields_cons (first second : String) (m : String × γ) (ms : List (String × γ)) :
    otherFields first second (m :: ms) =
      if m.1 ≠ first ∧ m.1 ≠ second then m :: otherFields first second ms
      else otherFields first second ms := by
  rw [otherFields, List.filter_cons]
  simp only [decide_eq_true_eq]
  rfl

section

variable {δ : Type} {first second : String} {readFirst : γ → Except Problem α}
  {readSecond : γ → Except Problem β} {P : α → γ → Prop} {Q : β → γ → Prop}

/-- What two fields are filled with, and everything else. -/
structure FillsTwo (first second : String) (P : α → γ → Prop) (Q : β → γ → Prop)
    (other : String → γ → δ) (seenFirst : Option α) (seenSecond : Option β)
    (ms : List (String × γ)) (x : α × β × List δ) : Prop where
  left : Fills P seenFirst (fieldValues first ms) x.1
  right : Fills Q seenSecond (fieldValues second ms) x.2.1
  others : x.2.2 = (otherFields first second ms).map fun m => other m.1 m.2

section

variable {other : String → γ → δ} {seenFirst : Option α} {seenSecond : Option β} {field : String}
  {j : γ} {ms : List (String × γ)} {x : α × β × List δ}

theorem fillsTwo_nil : FillsTwo first second P Q other seenFirst seenSecond [] x ↔
    ∃ a, Fills P seenFirst [] a ∧ ∃ b, Fills Q seenSecond [] b ∧ x = (a, b, []) := by
  constructor
  · rintro ⟨ha, hb, hothers⟩
    exact ⟨x.1, ha, x.2.1, hb, Prod.ext rfl (Prod.ext rfl hothers)⟩
  · rintro ⟨a, ha, b, hb, rfl⟩
    exact ⟨ha, hb, rfl⟩

theorem fillsTwo_cons_first (hne : second ≠ first) :
    FillsTwo first second P Q other seenFirst seenSecond ((first, j) :: ms) x ↔
      seenFirst = none ∧ ∃ a, P a j ∧ FillsTwo first second P Q other (some a) seenSecond ms x := by
  have hothers : otherFields first second ((first, j) :: ms) = otherFields first second ms := by
    rw [otherFields_cons, if_neg (fun h => h.1 rfl)]
  constructor
  · rintro ⟨ha, hb, hcs⟩
    rw [fieldValues_cons_self, fills_cons] at ha
    rw [fieldValues_cons_of_ne hne.symm] at hb
    obtain ⟨hseen, a, hj, ha⟩ := ha
    exact ⟨hseen, a, hj, ha, hb, hothers ▸ hcs⟩
  · rintro ⟨hseen, a, hj, ha, hb, hcs⟩
    refine ⟨?_, ?_, hothers ▸ hcs⟩
    · rw [fieldValues_cons_self, fills_cons]
      exact ⟨hseen, a, hj, ha⟩
    · rwa [fieldValues_cons_of_ne hne.symm]

theorem fillsTwo_cons_second (hne : second ≠ first) :
    FillsTwo first second P Q other seenFirst seenSecond ((second, j) :: ms) x ↔
      seenSecond = none ∧ ∃ b, Q b j ∧ FillsTwo first second P Q other seenFirst (some b) ms x := by
  have hothers : otherFields first second ((second, j) :: ms) = otherFields first second ms := by
    rw [otherFields_cons, if_neg (fun h => h.2 rfl)]
  constructor
  · rintro ⟨ha, hb, hcs⟩
    rw [fieldValues_cons_of_ne hne] at ha
    rw [fieldValues_cons_self, fills_cons] at hb
    obtain ⟨hseen, b, hj, hb⟩ := hb
    exact ⟨hseen, b, hj, ha, hb, hothers ▸ hcs⟩
  · rintro ⟨hseen, b, hj, ha, hb, hcs⟩
    refine ⟨?_, ?_, hothers ▸ hcs⟩
    · rwa [fieldValues_cons_of_ne hne]
    · rw [fieldValues_cons_self, fills_cons]
      exact ⟨hseen, b, hj, hb⟩

theorem fillsTwo_cons_other (hfirst : field ≠ first) (hsecond : field ≠ second) :
    FillsTwo first second P Q other seenFirst seenSecond ((field, j) :: ms) x ↔
      ∃ y, FillsTwo first second P Q other seenFirst seenSecond ms y ∧
        x = (y.1, y.2.1, other field j :: y.2.2) := by
  have hothers : otherFields first second ((field, j) :: ms) =
      (field, j) :: otherFields first second ms := by
    rw [otherFields_cons, if_pos ⟨hfirst, hsecond⟩]
  constructor
  · rintro ⟨ha, hb, hcs⟩
    rw [fieldValues_cons_of_ne hfirst] at ha
    rw [fieldValues_cons_of_ne hsecond] at hb
    rw [hothers] at hcs
    exact ⟨(x.1, x.2.1, (otherFields first second ms).map fun m : String × γ => other m.1 m.2),
      ⟨ha, hb, rfl⟩, Prod.ext rfl (Prod.ext rfl hcs)⟩
  · rintro ⟨y, ⟨ha, hb, hcs⟩, rfl⟩
    refine ⟨?_, ?_, ?_⟩
    · rwa [fieldValues_cons_of_ne hfirst]
    · rwa [fieldValues_cons_of_ne hsecond]
    · rw [hothers, hcs, List.map_cons]

end

/-- The two fields of a record are read if each is there once, and everything else is kept. -/
theorem reads_readFields (other : String → γ → δ) (hne : second ≠ first) (seenFirst : Option α)
    (seenSecond : Option β) {ms : List (String × γ)}
    (hfirst : ∀ j ∈ fieldValues first ms, Reads (readFirst j) fun a => P a j)
    (hsecond : ∀ j ∈ fieldValues second ms, Reads (readSecond j) fun b => Q b j) :
    Reads (readFields first second readFirst readSecond (fun name j => .ok (other name j))
      seenFirst seenSecond ms none) (FillsTwo first second P Q other seenFirst seenSecond ms) := by
  induction ms generalizing seenFirst seenSecond with
  | nil =>
    have h := (reads_required P first seenFirst).bind fun a _ =>
      (reads_required Q second seenSecond).map fun b => (a, b, ([] : List δ))
    exact h.congr fun x => fillsTwo_nil.symm
  | cons m ms ih =>
    obtain ⟨field, j⟩ := m
    rw [readFields]
    by_cases hf : field = first
    · subst hf
      rw [fieldValues_cons_self, List.forall_mem_cons] at hfirst
      rw [fieldValues_cons_of_ne hne.symm] at hsecond
      rw [if_pos rfl]
      exact (reads_once hfirst.1 fun a _ => ih _ _ hfirst.2 hsecond).congr
        fun x => (fillsTwo_cons_first hne).symm
    rw [fieldValues_cons_of_ne hf] at hfirst
    by_cases hs : field = second
    · subst hs
      rw [fieldValues_cons_self, List.forall_mem_cons] at hsecond
      rw [if_neg hf, if_pos rfl]
      exact (reads_once hsecond.1 fun b _ => ih _ _ hfirst hsecond.2).congr
        fun x => (fillsTwo_cons_second hne).symm
    · rw [fieldValues_cons_of_ne hs] at hsecond
      rw [if_neg hf, if_neg hs]
      have h := (ih seenFirst seenSecond hfirst hsecond).map
        fun x => (x.1, x.2.1, other field j :: x.2.2)
      exact h.congr fun x => (fillsTwo_cons_other hf hs).symm

/-- The two fields of a record are read if each is there once, and everything else is left out. -/
theorem reads_twoFields (hne : second ≠ first) {ms : List (String × γ)}
    (hfirst : ∀ j ∈ fieldValues first ms, Reads (readFirst j) fun a => P a j)
    (hsecond : ∀ j ∈ fieldValues second ms, Reads (readSecond j) fun b => Q b j) (f : α → β → δ) :
    Reads (readFields first second readFirst readSecond (fun _ _ => .ok ()) none none ms none >>=
        fun x => .ok (f x.1 x.2.1)) fun c =>
      ∃ a b, OneField first (P a) ms ∧ OneField second (Q b) ms ∧ c = f a b := by
  have h := (reads_readFields (fun _ _ => ()) hne none none hfirst hsecond).map fun x =>
    f x.1 x.2.1
  refine h.congr fun c => ?_
  constructor
  · rintro ⟨⟨a, b, rest⟩, ⟨ha, hb, -⟩, rfl⟩
    exact ⟨a, b, ha, hb, rfl⟩
  · rintro ⟨a, b, ha, hb, rfl⟩
    exact ⟨(a, b, _), ⟨ha, hb, rfl⟩, rfl⟩

end

/-- A record of two fields: an object with each of them once, or an array of the two. -/
def IsRecord (first second : String) (p q : Json → Prop) : Json → Prop
  | .object ms => OneField first p ms ∧ OneField second q ms
  | .array [j, k] => p j ∧ q k
  | _ => False

section

variable {expected : Expected} {first second : String} {readFirst : Json → Except Problem α}
  {readSecond : Json → Except Problem β} {P : α → Json → Prop} {Q : β → Json → Prop}

/-- A record that is an object is read by name. -/
theorem reads_record_object (hne : second ≠ first) {ms : List (String × Json)}
    (hfirst : ∀ j ∈ fieldValues first ms, Reads (readFirst j) fun a => P a j)
    (hsecond : ∀ j ∈ fieldValues second ms, Reads (readSecond j) fun b => Q b j) :
    Reads (Json.view.record expected first second readFirst readSecond (.object ms)) fun x =>
      IsRecord first second (P x.1) (Q x.2) (.object ms) := by
  refine (reads_twoFields hne hfirst hsecond Prod.mk).congr fun x => ?_
  constructor
  · rintro ⟨a, b, ha, hb, rfl⟩
    exact ⟨ha, hb⟩
  · rintro ⟨hx, hy⟩
    exact ⟨x.1, x.2, hx, hy, rfl⟩

/-- A record that is an array is read by place; with too few or too many elements it is refused. -/
theorem reads_record_array {js : List Json} (hfirst : ∀ j ∈ js, Reads (readFirst j) fun a => P a j)
    (hsecond : ∀ j ∈ js, Reads (readSecond j) fun b => Q b j) :
    Reads (Json.view.record expected first second readFirst readSecond (.array js)) fun x =>
      IsRecord first second (P x.1) (Q x.2) (.array js) := by
  match js with
  | [] => exact .refuse _ fun x => id
  | [i] =>
    rw [List.forall_mem_singleton] at hfirst
    exact (hfirst.bind (R := fun _ _ => False) fun a _ => .refuse _ fun x => id).congr
      fun x => by simp [IsRecord]
  | [i, k] =>
    rw [List.forall_mem_cons] at hfirst
    rw [List.forall_mem_cons, List.forall_mem_singleton] at hsecond
    refine (hfirst.1.bind fun a _ => hsecond.2.map fun b => (a, b)).congr fun x => ?_
    constructor
    · rintro ⟨a, ha, b, hb, rfl⟩
      exact ⟨ha, hb⟩
    · rintro ⟨ha, hb⟩
      exact ⟨x.1, ha, x.2, hb, rfl⟩
  | i :: k :: l :: more =>
    rw [List.forall_mem_cons] at hfirst hsecond
    rw [List.forall_mem_cons] at hsecond
    exact (hfirst.1.bind (R := fun _ _ => False) fun a _ =>
      (hsecond.2.1.bind (R := fun _ _ => False) fun b _ => .refuse _ fun x => id).congr
        fun x => by simp).congr fun x => by simp [IsRecord]

/-- A record is read by name or by place. -/
theorem reads_record (expected : Expected) (hne : second ≠ first) {j : Json}
    (hfirst : ∀ i ∈ j.parts, Reads (readFirst i) fun a => P a i)
    (hsecond : ∀ i ∈ j.parts, Reads (readSecond i) fun b => Q b i) :
    Reads (Json.view.record expected first second readFirst readSecond j) fun x =>
      IsRecord first second (P x.1) (Q x.2) j := by
  cases j with
  | scalar s => exact .refuse _ fun x => id
  | object ms =>
    have hmem {name : String} {i : Json} (hi : i ∈ fieldValues name ms) :
        i ∈ (Json.object ms).parts := List.mem_map_of_mem (f := (·.2)) (mem_of_mem_fieldValues hi)
    exact reads_record_object hne (fun i hi => hfirst i (hmem hi)) fun i hi => hsecond i (hmem hi)
  | array js => exact reads_record_array hfirst hsecond

end

end TypeGraph
