import TypeGraph.Options
import TypeGraph.Proofs.Model.Streaming
import Mathlib.Tactic.Tauto

/-!
# Reading options

Options are read from the fields that a text gives, by name in an object or by place in an array
(`Options.FieldText`), in any order and among members that are not known. Each field is read from
its own values alone (`Options.Seen.readAll_eq_ok_iff`), so there must be one value that spells it,
or none if it is as by default (`Options.ofText_eq_ok_iff`).
-/

namespace TypeGraph

namespace Options

theorem forms_fieldValues (name : String) {ms : List (String × List Char)}
    {ds : List (String × Draft)} (h : List.Forall₂ MemberForms ms ds) :
    List.Forall₂ Forms (fieldValues name ms) (fieldValues name ds) := by
  induction h with
  | nil => exact .nil
  | cons hm hms ih =>
    rw [fieldValues_cons, fieldValues_cons, hm.1]
    split
    · exact .cons hm.2 ih
    · exact ih

/-! ## Values of one field -/

section

variable {α : Type} {name : String} {read : Draft → Except Problem α} {seen r : Option α}
  {d : Draft} {ds : List Draft}

/-- Reads the values of a field one after the other; there may be only one. -/
def readOnce (name : String) (read : Draft → Except Problem α) (seen : Option α)
    (ds : List Draft) : Except Problem (Option α) :=
  ds.foldlM (fun seen d => View.once name seen (read d)) seen

theorem readOnce_cons :
    readOnce name read seen (d :: ds) = .ok r ↔
      ∃ seen', View.once name seen (read d) = .ok seen' ∧ readOnce name read seen' ds = .ok r := by
  rw [readOnce, List.foldlM_cons, bind_eq_ok_iff]
  rfl

theorem once_none_eq_ok_iff :
    View.once name none (read d) = .ok r ↔ ∃ a, read d = .ok a ∧ r = some a := by
  cases h : read d with
  | error e => exact ⟨nofun, nofun⟩
  | ok a =>
    constructor
    · rintro ⟨⟩
      exact ⟨a, rfl, rfl⟩
    · rintro ⟨_, ⟨⟩, rfl⟩
      rfl

/-- A field has a value if there is one to read, and none if it is left to the default. -/
theorem exists_readOnce_iff {standard a : α} :
    (∃ r, readOnce name read none ds = .ok r ∧ r.getD standard = a) ↔
      (ds = [] ∧ a = standard) ∨ ∃ d, ds = [d] ∧ read d = .ok a := by
  rcases ds with _ | ⟨d, _ | ⟨d', ds⟩⟩
  · constructor
    · rintro ⟨r, ⟨⟩, ha⟩
      exact .inl ⟨rfl, ha.symm⟩
    · rintro (⟨-, rfl⟩ | ⟨d, ⟨⟩, -⟩)
      exact ⟨none, rfl, rfl⟩
  · simp only [readOnce_cons, once_none_eq_ok_iff]
    constructor
    · rintro ⟨r, ⟨seen, ⟨b, hb, rfl⟩, ⟨⟩⟩, rfl⟩
      exact .inr ⟨d, rfl, hb⟩
    · rintro (⟨⟨⟩, -⟩ | ⟨_, ⟨⟩, ha⟩)
      exact ⟨some a, ⟨_, ⟨a, ha, rfl⟩, rfl⟩, rfl⟩
  · -- the second value is one too many
    simp only [readOnce_cons, once_none_eq_ok_iff]
    constructor
    · rintro ⟨r, ⟨seen, ⟨b, hb, rfl⟩, seen', ⟨⟩, -⟩, -⟩
    · rintro (⟨⟨⟩, -⟩ | ⟨_, ⟨⟩, -⟩)

/-- A member is read into the field of its name, and leaves the field of another name. -/
def Step (name : String) (read : Draft → Except Problem α) (m : String × Draft)
    (seen seen' : Option α) : Prop :=
  if m.1 = name then View.once name seen (read m.2) = .ok seen' else seen = seen'

theorem readOnce_fieldValues_cons {m : String × Draft} {ms : List (String × Draft)} :
    readOnce name read seen (fieldValues name (m :: ms)) = .ok r ↔
      ∃ seen', Step name read m seen seen' ∧
        readOnce name read seen' (fieldValues name ms) = .ok r := by
  rw [fieldValues_cons]
  unfold Step
  split
  · exact readOnce_cons
  · simp

end

/-! ## Members of an object -/

/-- A member is a step of each field, and skipped if it is none of them. -/
theorem Seen.read_eq_ok_iff {s s' : Seen} {m : String × Draft} :
    s.read m.1 m.2 = .ok s' ↔
      (Step "cyclePolicy" CyclePolicy.ofDraft m s.cyclePolicy s'.cyclePolicy ∧
        Step "recordOrigin" Draft.view.truth m s.recordOrigin s'.recordOrigin ∧
        Step "maxDepth" Draft.view.word? m s.maxDepth s'.maxDepth ∧
        Step "maxNodes" Draft.view.word? m s.maxNodes s'.maxNodes) ∧
      (m.1 ∉ fieldNames → m.2.skip = .ok ()) := by
  obtain ⟨name, d⟩ := m
  obtain ⟨policy, origin, depth, nodes⟩ := s
  obtain ⟨policy', origin', depth', nodes'⟩ := s'
  by_cases h : name ∈ fieldNames
  · simp only [fieldNames, List.mem_cons, List.not_mem_nil, or_false] at h
    rcases h with rfl | rfl | rfl | rfl <;>
      simp [read, Step, fieldNames, bind_eq_ok_iff, pure, Except.pure, -bind_pure_comp]
    all_goals tauto
  · have hne := h
    simp only [fieldNames, List.mem_cons, List.not_mem_nil, or_false, not_or] at hne
    cases hskip : d.skip <;> simp [read, Step, h, hne, Draft.view, ofFault, hskip]

/-- Each field is read from its own values, and members that are none of them are skipped. -/
theorem Seen.readAll_eq_ok_iff {s s' : Seen} {ms : List (String × Draft)} :
    s.readAll ms .none = .ok s' ↔
      (readOnce "cyclePolicy" CyclePolicy.ofDraft s.cyclePolicy (fieldValues "cyclePolicy" ms) =
          .ok s'.cyclePolicy ∧
        readOnce "recordOrigin" Draft.view.truth s.recordOrigin (fieldValues "recordOrigin" ms) =
          .ok s'.recordOrigin ∧
        readOnce "maxDepth" Draft.view.word? s.maxDepth (fieldValues "maxDepth" ms) =
          .ok s'.maxDepth ∧
        readOnce "maxNodes" Draft.view.word? s.maxNodes (fieldValues "maxNodes" ms) =
          .ok s'.maxNodes) ∧
      ∀ m ∈ ms, m.1 ∉ fieldNames → m.2.skip = .ok () := by
  induction ms generalizing s with
  | nil =>
    obtain ⟨policy, origin, depth, nodes⟩ := s
    obtain ⟨policy', origin', depth', nodes'⟩ := s'
    simp [readAll, readOnce, fieldValues, View.finish, Draft.close, ofFault, pure, Except.pure,
      bind, Except.bind]
  | cons m ms ih =>
    have hread : s.readAll (m :: ms) .none = .ok s' ↔
        ∃ t, s.read m.1 m.2 = .ok t ∧ t.readAll ms .none = .ok s' := bind_eq_ok_iff
    simp only [hread, Seen.read_eq_ok_iff, ih, readOnce_fieldValues_cons, List.forall_mem_cons]
    constructor
    · rintro ⟨t, ⟨⟨h1, h2, h3, h4⟩, hskip⟩, ⟨h1', h2', h3', h4'⟩, hskips⟩
      exact ⟨⟨⟨_, h1, h1'⟩, ⟨_, h2, h2'⟩, ⟨_, h3, h3'⟩, _, h4, h4'⟩, hskip, hskips⟩
    · rintro ⟨⟨⟨a, h1, h1'⟩, ⟨b, h2, h2'⟩, ⟨c, h3, h3'⟩, d, h4, h4'⟩, hskip, hskips⟩
      exact ⟨⟨a, b, c, d⟩, ⟨⟨h1, h2, h3, h4⟩, hskip⟩, ⟨h1', h2', h3', h4'⟩, hskips⟩

/-- What is noticed at the end of the members is an error, whatever they give. -/
theorem Seen.readAll_flaw (s : Seen) (ms : List (String × Draft)) (flaw : Fault) :
    ∃ e, s.readAll ms (some flaw) = .error e := by
  induction ms generalizing s with
  | nil => exact ⟨_, rfl⟩
  | cons m ms ih =>
    have hread : s.readAll (m :: ms) (some flaw) =
        s.read m.1 m.2 >>= fun t => t.readAll ms (some flaw) := rfl
    rw [hread]
    cases s.read m.1 m.2 with
    | error e => exact ⟨e, rfl⟩
    | ok t => exact ih t

/-! ## Fields -/

/-- The fields of options. -/
inductive Field where
  | cyclePolicy | recordOrigin | maxDepth | maxNodes
  deriving DecidableEq

/-- The name of a field. -/
def Field.name : Field → String
  | cyclePolicy => "cyclePolicy"
  | recordOrigin => "recordOrigin"
  | maxDepth => "maxDepth"
  | maxNodes => "maxNodes"

variable {o : Options} {d : Draft} {f : Field}

/-- Options have the default value of a field. -/
def IsStandard (o : Options) : Field → Prop
  | .cyclePolicy => o.cyclePolicy = standard.cyclePolicy
  | .recordOrigin => o.recordOrigin = standard.recordOrigin
  | .maxDepth => o.maxDepth = standard.maxDepth
  | .maxNodes => o.maxNodes = standard.maxNodes

/-- A draft is read as the value that options have for a field. -/
def ReadFrom (o : Options) : Field → Draft → Prop
  | .cyclePolicy, d => CyclePolicy.ofDraft d = .ok o.cyclePolicy
  | .recordOrigin, d => Draft.view.truth d = .ok o.recordOrigin
  | .maxDepth, d => Draft.view.word? d = .ok o.maxDepth
  | .maxNodes, d => Draft.view.word? d = .ok o.maxNodes

/-- A text spells the value that options have for a field. A policy is spelled by its name, or by an
object with that name and `null`. -/
def Gives (o : Options) : Field → List Char → Prop
  | .cyclePolicy, text => Spells text (.string o.cyclePolicy.name) ∨
      Spells text (.object [(o.cyclePolicy.name, .null)])
  | .recordOrigin, text => Spells text (.boolean o.recordOrigin)
  | .maxDepth, text => Spells text (wordJson o.maxDepth)
  | .maxNodes, text => Spells text (wordJson o.maxNodes)

/-- The options that some members give. -/
def ofMembers (ds : List (String × Draft)) : Except Problem Options := do
  return ofSeen (← Seen.none.readAll ds .none)

/-- Options are read from members that give each field once, or leave it to its default. -/
theorem ofMembers_eq_ok_iff {ds : List (String × Draft)} :
    ofMembers ds = .ok o ↔
      (∀ f : Field, fieldValues f.name ds = [] ∧ o.IsStandard f ∨
        OneField f.name (o.ReadFrom f) ds) ∧
      ∀ m ∈ ds, m.1 ∉ fieldNames → m.2.skip = .ok () := by
  rw [ofMembers]
  simp only [bind_eq_ok_iff, Seen.readAll_eq_ok_iff]
  constructor
  · rintro ⟨s, ⟨⟨hpolicy, horigin, hdepth, hnodes⟩, hskip⟩, ⟨⟩⟩
    refine ⟨fun f => ?_, hskip⟩
    cases f with
    | cyclePolicy => exact exists_readOnce_iff.mp ⟨_, hpolicy, rfl⟩
    | recordOrigin => exact exists_readOnce_iff.mp ⟨_, horigin, rfl⟩
    | maxDepth => exact exists_readOnce_iff.mp ⟨_, hdepth, rfl⟩
    | maxNodes => exact exists_readOnce_iff.mp ⟨_, hnodes, rfl⟩
  · rintro ⟨h, hskip⟩
    obtain ⟨policy, hpolicy, hp⟩ := exists_readOnce_iff.mpr (h .cyclePolicy)
    obtain ⟨origin, horigin, ho⟩ := exists_readOnce_iff.mpr (h .recordOrigin)
    obtain ⟨depth, hdepth, hd⟩ := exists_readOnce_iff.mpr (h .maxDepth)
    obtain ⟨nodes, hnodes, hn⟩ := exists_readOnce_iff.mpr (h .maxNodes)
    refine ⟨⟨policy, origin, depth, nodes⟩, ⟨⟨hpolicy, horigin, hdepth, hnodes⟩, hskip⟩, ?_⟩
    rw [ofSeen, hp, ho, hd, hn]
    rfl

/-! ## Values of fields -/

theorem ofFault_eq_ok_iff {α : Type} {x : Except Fault α} {a : α} :
    ofFault x = .ok a ↔ x = .ok a := by
  cases x <;> simp [ofFault]

theorem close_eq_ok_iff {flaw : Option Fault} {u : Unit} :
    Draft.close flaw = .ok u ↔ flaw = none := by
  cases flaw <;> simp [Draft.close]

/-- A scalar is kept as it is read. -/
theorem layer_scalar_iff {s : Scalar} (n : ℕ) :
    Draft.view.layer d = .ok (.scalar s) ↔ d.toJson n = .ok (.scalar s) := by
  cases d with
  | missing =>
    rw [Draft.toJson]
    exact ⟨by rintro ⟨⟩, by rintro ⟨⟩⟩
  | string q =>
    rw [Draft.toJson]
    cases hq : q.text <;>
      simp [Draft.view, hq, ofFault, bind, Except.bind, pure, Except.pure]
  | scalar t flaw =>
    rw [Draft.toJson]
    cases t <;> simp [Draft.view, ofFault, bind, Except.bind, pure, Except.pure]
  | array items flaw =>
    refine ⟨by rintro ⟨⟩, fun h => ?_⟩
    obtain ⟨m, js, -, ⟨⟩, -⟩ := Draft.toJson_array_eq_ok h
  | object entries flaw =>
    refine ⟨by rintro ⟨⟩, fun h => ?_⟩
    obtain ⟨m, ms, -, ⟨⟩, -⟩ := Draft.toJson_object_eq_ok h

theorem truth_eq_ok_iff {b : Bool} :
    Draft.view.truth d = .ok b ↔ d.toJson 0 = .ok (.boolean b) := by
  rw [← layer_scalar_iff, View.truth]
  rcases Draft.view.layer d with e | ⟨_ | _ | _ | _⟩ | _ | _ <;>
    simp [refuse, bind, Except.bind, pure, Except.pure]

/-- The numbers of 32 bits are the integers in their range. -/
theorem integer_eq_word_iff {i : ℤ} {n : UInt32} :
    (0 ≤ i ∧ i.toNat < 2 ^ 32) ∧ UInt32.ofNat i.toNat = n ↔ i = n.toNat := by
  constructor
  · rintro ⟨⟨hpos, hlt⟩, rfl⟩
    rw [UInt32.toNat_ofNat_of_lt' hlt, Int.toNat_of_nonneg hpos]
  · rintro rfl
    rw [Int.toNat_natCast, UInt32.ofNat_toNat]
    exact ⟨⟨Int.natCast_nonneg _, n.toNat_lt⟩, rfl⟩

theorem word?_eq_ok_iff {w : Option UInt32} :
    Draft.view.word? d = .ok w ↔ d.toJson 0 = .ok (wordJson w) := by
  obtain ⟨s, hs⟩ : ∃ s, wordJson w = .scalar s := by cases w <;> exact ⟨_, rfl⟩
  rw [hs, ← layer_scalar_iff, View.word?]
  rcases Draft.view.layer d with e | ⟨_ | _ | (i | _) | _⟩ | _ | _
  case ok.scalar.number.integer =>
    have hpow : Nat.pow 2 32 = 2 ^ 32 := rfl
    dsimp only [bind, Except.bind]
    rw [hpow]
    cases w with
    | none =>
      cases hs
      split <;> exact ⟨nofun, nofun⟩
    | some n =>
      cases hs
      have hword := integer_eq_word_iff (i := i) (n := n)
      split
      next h =>
        rw [and_iff_right h] at hword
        simpa [pure, Except.pure] using hword
      next h =>
        have hne : i ≠ n.toNat := fun hi => h (hword.mpr hi).1
        simpa [refuse] using hne
  all_goals cases w <;> cases hs <;> simp [refuse, bind, Except.bind, pure, Except.pure]

theorem variantNamed_eq_ok_iff {word : String} {p : CyclePolicy} :
    variantNamed CyclePolicy.name CyclePolicy.all word = .ok p ↔ word = p.name := by
  rw [variantNamed, CyclePolicy.all, List.find?_cons, List.find?_cons]
  by_cases hd : "detect" = word
  · subst hd
    cases p <;> simp [CyclePolicy.name]
  · by_cases ht : "trust" = word
    · subst ht
      cases p <;> simp [CyclePolicy.name]
    · cases p <;> simp [CyclePolicy.name, hd, ht, refuse, eq_comm (a := word)]

theorem toJson_single_iff {es : List (Draft.Entry Draft)} {flaw : Option Fault} {name : String}
    {j : Json} :
    (Draft.object es flaw).toJson 1 = .ok (.object [(name, j)]) ↔
      flaw = none ∧ ∃ e, es = [e] ∧ e.name.text = .ok name ∧ e.value.toJson 0 = .ok j := by
  rw [Draft.toJson]
  simp only [bind_eq_ok_iff, mapM_eq_ok_iff]
  constructor
  · rintro ⟨ms, hms, _, hflaw, ⟨⟩⟩
    obtain ⟨e, es, ⟨_, hname, _, hj, ⟨⟩⟩, hes, rfl⟩ := List.forall₂_cons_right_iff.mp hms
    obtain rfl := List.forall₂_nil_right_iff.mp hes
    exact ⟨close_eq_ok_iff.mp hflaw, e, rfl, hname, hj⟩
  · rintro ⟨rfl, e, rfl, hname, hj⟩
    exact ⟨_, .cons ⟨name, hname, j, hj, rfl⟩ .nil, (), rfl, rfl⟩

/-- A policy is read from an object with its name and `null`. -/
theorem policy_object_iff {es : List (Draft.Entry Draft)} {flaw : Option Fault} {p : CyclePolicy} :
    CyclePolicy.ofDraft (.object es flaw) = .ok p ↔
      (Draft.object es flaw).toJson 1 = .ok (.object [(p.name, .null)]) := by
  rw [toJson_single_iff, CyclePolicy.ofDraft]
  cases es with
  | nil =>
    rw [readVariant]
    exact ⟨nofun, by rintro ⟨-, e, ⟨⟩, -⟩⟩
  | cons e es =>
    rw [readVariant]
    simp only [bind_eq_ok_iff]
    constructor
    · rintro ⟨word, hword, q, hq, l, hl, hend⟩
      split at hend
      next =>
        cases es with
        | nil =>
          obtain ⟨_, hflaw, ⟨⟩⟩ := bind_eq_ok_iff.mp hend
          refine ⟨close_eq_ok_iff.mp (ofFault_eq_ok_iff.mp hflaw), e, rfl, ?_,
            (layer_scalar_iff 0).mp hl⟩
          rw [ofFault_eq_ok_iff.mp hword, variantNamed_eq_ok_iff.mp hq]
        | cons => cases hend
      next => cases hend
    · rintro ⟨rfl, _, ⟨⟩, hname, hj⟩
      exact ⟨p.name, ofFault_eq_ok_iff.mpr hname, p, variantNamed_eq_ok_iff.mpr rfl, _,
        (layer_scalar_iff 0).mpr hj, rfl⟩

/-- A policy is read from its name, or from an object with that name and `null`. -/
theorem policy_eq_ok_iff {text : List Char} {p : CyclePolicy} (h : Forms text d) :
    CyclePolicy.ofDraft d = .ok p ↔
      d.toJson 1 = .ok (.string p.name) ∨ d.toJson 1 = .ok (.object [(p.name, .null)]) := by
  cases d with
  | missing =>
    rw [Draft.toJson]
    exact ⟨by rintro ⟨⟩, by rintro (⟨⟨⟩⟩ | ⟨⟨⟩⟩)⟩
  | string q =>
    rw [CyclePolicy.ofDraft, readVariant, Draft.toJson]
    cases hq : q.text with
    | error f => simp [ofFault, bind, Except.bind]
    | ok word => simp [ofFault, bind, Except.bind, variantNamed_eq_ok_iff, pure, Except.pure]
  | scalar s flaw =>
    refine ⟨by rintro ⟨⟩, ?_⟩
    rintro (hj | hj) <;> obtain ⟨t, rfl, ht⟩ := Draft.toJson_scalar_eq_ok hj
    · cases ht
      exact absurd rfl (h.scalar_ne_string _)
    · cases ht
  | array items flaw =>
    refine ⟨by rintro ⟨⟩, ?_⟩
    rintro (hj | hj) <;> obtain ⟨m, js, -, ⟨⟩, -⟩ := Draft.toJson_array_eq_ok hj
  | object es flaw =>
    have hstring : (Draft.object es flaw).toJson 1 ≠ .ok (.string p.name) := by
      intro hj
      obtain ⟨m, ms, -, ⟨⟩, -⟩ := Draft.toJson_object_eq_ok hj
    rw [policy_object_iff, or_iff_right hstring]

/-- Of a well-formed text, what is read for a field is what the text spells. -/
theorem readFrom_iff_gives {text : List Char} (h : Forms text d) :
    o.ReadFrom f d ↔ o.Gives f text := by
  have hword (w : Option UInt32) : (wordJson w).depth ≤ 0 := by cases w <;> rfl
  cases f with
  | cyclePolicy =>
    have hobject : (Json.object [(o.cyclePolicy.name, .null)]).depth ≤ 1 := le_rfl
    rw [ReadFrom, policy_eq_ok_iff h, h.toJson_eq_ok_iff (Nat.zero_le 1),
      h.toJson_eq_ok_iff hobject]
    rfl
  | recordOrigin =>
    rw [ReadFrom, truth_eq_ok_iff, h.toJson_eq_ok_iff (Nat.zero_le 0)]
    rfl
  | maxDepth | maxNodes =>
    rw [ReadFrom, word?_eq_ok_iff, h.toJson_eq_ok_iff (hword _)]
    rfl

/-! ## Texts of options -/

/-- The texts that give fields, with the texts of their values: an object gives them by name, and an
array by their order. -/
inductive FieldText : List Char → List (String × List Char) → Prop
  | object {cs : List Char} {ms : List (String × List Char)} (h : ObjectText cs ms) :
      FieldText cs ms
  | array {cs : List Char} {values : List (List Char)} (h : ArrayText cs values)
      (hlen : values.length ≤ 4) : FieldText cs (fieldNames.zip values)

theorem memberForms_zip (names : List String) {values : List (List Char)} {ds : List Draft}
    (h : List.Forall₂ Forms values ds) :
    List.Forall₂ MemberForms (names.zip values) (names.zip ds) := by
  induction h generalizing names with
  | nil =>
    rw [List.zip_nil_right, List.zip_nil_right]
    exact .nil
  | cons hd hds ih =>
    cases names with
    | nil => exact .nil
    | cons name names => exact .cons ⟨rfl, hd⟩ (ih names)

/-- Options are read from the fields that a text gives. -/
theorem FieldText.ofText_eq {text : String} {ms : List (String × List Char)}
    (h : FieldText text.toList ms) :
    ∃ ds, List.Forall₂ MemberForms ms ds ∧ ofText text = ofMembers ds := by
  generalize hcs : text.toList = cs at h
  cases h with
  | object h =>
    obtain ⟨ds, hforms, hms⟩ := h.forms
    refine ⟨ds, hms, ?_⟩
    have hlayer : Draft.view.layer (.object (Draft.entries ds) none) = .ok (.map ds none) := by
      dsimp only [Draft.view]
      rw [Draft.members_entries]
    rw [ofText, readText_forms _ (hcs ▸ hforms), ofDraft, hlayer]
    rfl
  | @array values h hlen =>
    obtain ⟨ds, hforms, hds⟩ := h.forms
    refine ⟨fieldNames.zip ds, memberForms_zip fieldNames hds, ?_⟩
    have hsurplus : ¬ fieldNames.length < ds.length := Nat.not_lt.mpr (hds.length_eq ▸ hlen)
    have hlayer : Draft.view.layer (.array ds none) = .ok (.sequence ds none) := rfl
    rw [ofText, readText_forms _ (hcs ▸ hforms), ofDraft, hlayer]
    dsimp only [bind, Except.bind]
    rw [if_neg hsurplus]
    rfl

variable {text : String} {ms : List (String × List Char)}

/-- An array of more values than there are fields is an error. -/
theorem ofText_surplus {values : List (List Char)} (h : ArrayText text.toList values)
    (hlen : 4 < values.length) : ∃ e, ofText text = .error e := by
  obtain ⟨ds, hforms, hds⟩ := h.forms
  have hsurplus : fieldNames.length < ds.length := hds.length_eq ▸ hlen
  have hlayer : Draft.view.layer (.array ds none) = .ok (.sequence ds none) := rfl
  obtain ⟨e, he⟩ := Seen.none.readAll_flaw (fieldNames.zip ds) .malformed
  rw [ofText, readText_forms _ hforms, ofDraft, hlayer]
  dsimp only [bind, Except.bind]
  rw [if_pos hsurplus, he]
  exact ⟨e, rfl⟩

theorem skip_of_memberForms {ds : List (String × Draft)} (h : List.Forall₂ MemberForms ms ds) :
    ∀ d ∈ ds, d.2.skip = .ok () := by
  induction h with
  | nil => exact List.forall_mem_nil _
  | cons hm hms ih => exact List.forall_mem_cons.mpr ⟨hm.2.skip, ih⟩

/-- A text gives options if it gives their value of each field once, or leaves it to the default. -/
theorem ofText_eq_ok_iff (h : FieldText text.toList ms) :
    ofText text = .ok o ↔ ∀ f : Field, fieldValues f.name ms = [] ∧ o.IsStandard f ∨
      OneField f.name (o.Gives f) ms := by
  obtain ⟨ds, hms, hread⟩ := h.ofText_eq
  rw [hread, ofMembers_eq_ok_iff, and_iff_left fun d hd _ => skip_of_memberForms hms d hd]
  refine forall_congr' fun f => ?_
  unfold OneField
  have hvalues := forms_fieldValues f.name hms
  generalize fieldValues f.name ms = values at hvalues
  generalize fieldValues f.name ds = drafts at hvalues
  rcases hvalues with _ | ⟨hd, _ | _⟩
  · simp
  · simp [readFrom_iff_gives hd]
  · simp

/-- Texts that give the same fields are read alike. -/
theorem ofText_congr {text' : String} (h : FieldText text.toList ms)
    (h' : FieldText text'.toList ms) : ofText text = ofText text' := by
  obtain ⟨ds, hms, hread⟩ := h.ofText_eq
  obtain ⟨ds', hms', hread'⟩ := h'.ofText_eq
  have hunique : Relator.RightUnique MemberForms := fun m d e hd he =>
    Prod.ext (hd.1.trans he.1.symm) (hd.2.unique he.2)
  rw [hread, hread', List.right_unique_forall₂' hunique hms hms']

/-- Where a text is read, each value of a field is the one that the options have for it. -/
theorem gives_of_mem (h : FieldText text.toList ms) (hread : ofText text = .ok o)
    {value : List Char} (hv : value ∈ fieldValues f.name ms) : o.Gives f value := by
  obtain ⟨hnone, -⟩ | ⟨v, hone, hgives⟩ := (ofText_eq_ok_iff h).mp hread f
  · rw [hnone] at hv
    cases hv
  · rw [hone, List.mem_singleton] at hv
    rwa [hv]

/-- Where a text is read, no field is given twice. -/
theorem length_fieldValues_le (h : FieldText text.toList ms) (hread : ofText text = .ok o)
    (f : Field) : (fieldValues f.name ms).length ≤ 1 := by
  obtain ⟨hnone, -⟩ | ⟨v, hone, -⟩ := (ofText_eq_ok_iff h).mp hread f
  · rw [hnone]
    exact Nat.zero_le 1
  · rw [hone]
    exact Nat.le_refl 1

theorem readable_wordJson (w : Option UInt32) : (wordJson w).Readable := by
  cases w with
  | none => exact .scalar nofun
  | some n =>
    refine .scalar fun m hm => ?_
    obtain rfl : Number.integer n.toNat = m := by simpa using hm
    have hn : n.toNat < 2 ^ 32 := n.toNat_lt
    constructor <;> omega

/-- What is written for options is read as these. -/
theorem ofText_text (o : Options) : ofText o.text = .ok o := by
  have hreadable : (Json.object o.members).Readable := by
    refine Json.readable_object.mpr ?_
    simp [members, Json.readable_string, Json.readable_boolean, readable_wordJson]
  have hword (w : Option UInt32) : Draft.view.word? (wordJson w).draft = .ok w := by
    rw [word?_eq_ok_iff, Json.toJson_draft]
    cases w <;> rfl
  have hread : ofMembers (o.members.map fun m => (m.1, m.2.draft)) = .ok o := by
    refine ofMembers_eq_ok_iff.mpr ⟨fun f => .inr ?_, fun m hm _ => ?_⟩
    · cases f with
      | cyclePolicy =>
        exact ⟨_, rfl, (policy_eq_ok_iff (spells_quote o.cyclePolicy.name).forms).mpr (.inl rfl)⟩
      | recordOrigin => exact ⟨_, rfl, rfl⟩
      | maxDepth => exact ⟨_, rfl, hword o.maxDepth⟩
      | maxNodes => exact ⟨_, rfl, hword o.maxNodes⟩
    · obtain ⟨m, -, rfl⟩ := List.mem_map.mp hm
      exact m.2.skip_draft
  rw [ofText, text, readText_write _ hreadable, ofDraft, View.shows_draft.object]
  exact hread

/-- Options are read back from what is written for them, and from every text that gives their value
of each field at most once and otherwise leaves the field to its default: by name in an object, in
any order and among unknown members, or by place in an array of up to four values, which is read
like the object with these fields. A field given twice, a limit that is neither `null` nor an
integer of 32 bits, or a fifth value, is an error. -/
theorem fields_read_exactly :
    (∀ o : Options, ofText o.text = .ok o) ∧
    (∀ (text : String) (ms : List (String × List Char)), FieldText text.toList ms → ∀ o : Options,
      ofText text = .ok o ↔ ∀ f : Field, fieldValues f.name ms = [] ∧ o.IsStandard f ∨
        OneField f.name (o.Gives f) ms) ∧
    (∀ (text text' : String) (values : List (List Char)), values.length ≤ 4 →
      ArrayText text.toList values → ObjectText text'.toList (fieldNames.zip values) →
      ofText text = ofText text') ∧
    (∀ (text : String) (ms : List (String × List Char)), FieldText text.toList ms →
      ((∃ f : Field, 2 ≤ (fieldValues f.name ms).length) ∨
        ∃ value, (value ∈ fieldValues "maxDepth" ms ∨ value ∈ fieldValues "maxNodes" ms) ∧
          ∀ w, ¬ Spells value (wordJson w)) →
      ∃ e, ofText text = .error e) ∧
    ∀ (text : String) (values : List (List Char)), ArrayText text.toList values →
      4 < values.length → ∃ e, ofText text = .error e := by
  refine ⟨ofText_text, ?_, ?_, ?_, fun text values h hlen => ofText_surplus h hlen⟩
  · intro text ms h o
    exact ofText_eq_ok_iff h
  · intro text text' values hlen h h'
    exact ofText_congr (.array h hlen) (.object h')
  intro text ms h hbad
  cases hread : ofText text with
  | error e => exact ⟨e, rfl⟩
  | ok o =>
    rcases hbad with ⟨f, htwice⟩ | ⟨value, hdepth | hnodes, hword⟩
    · exact absurd htwice (Nat.not_lt.mpr (length_fieldValues_le h hread f))
    · have hgives : o.Gives .maxDepth value := gives_of_mem h hread hdepth
      exact absurd hgives (hword _)
    · have hgives : o.Gives .maxNodes value := gives_of_mem h hread hnodes
      exact absurd hgives (hword _)

/-- A text of an object whose names are written as usual. -/
theorem objectText_quote {cs : List Char} {ms : List (String × List Char)} (hne : ms ≠ [])
    (hv : ∀ m ∈ ms, WellFormed m.2)
    (hcs : cs = '\x7b' :: (separated (ms.map fun m => quote m.1 ++ ':' :: m.2) ++ ['\x7d'])) :
    ObjectText cs ms := by
  have hnames : ∀ x ∈ ms.map fun m => (quote m.1, m), Spells x.1 (.string x.2.1) := by
    rw [List.forall_mem_map]
    exact fun m _ => spells_quote m.1
  have hvalues : ∀ x ∈ ms.map fun m => (quote m.1, m), WellFormed x.2.2 := by
    rw [List.forall_mem_map]
    exact hv
  have h := ObjectText.members (by simpa using hne) hnames hvalues
  rw [List.map_map, List.map_map] at h
  simpa [hcs, Function.comp_def] using h

/-- A limit behind an unknown member whose number no double can hold; three fields by place; no
fields at all; the same limit twice; and five values. -/
theorem fields_read_exactly_limits :
    ofText "\x7b\"x\":1e999,\"maxDepth\":7\x7d" = .ok { standard with maxDepth := some 7 } ∧
      ofText "[\"trust\",false,7]" =
        ofText "\x7b\"cyclePolicy\":\"trust\",\"recordOrigin\":false,\"maxDepth\":7\x7d" ∧
      ofText "[]" = ofText "\x7b\x7d" ∧
      (∃ e, ofText "\x7b\"maxDepth\":7,\"maxDepth\":7\x7d" = .error e) ∧
      ∃ e, ofText "[7,7,7,7,7]" = .error e := by
  obtain ⟨-, hread, harray, herror, hsurplus⟩ := fields_read_exactly
  have hseven : Spells ['7'] (wordJson (some 7)) := (readable_wordJson (some 7)).spells
  have hone : IsWhole ['1'] := ⟨⟨by decide, List.all_eq_true.mp (by decide)⟩, by decide⟩
  have hexponent : IsDigits ['9', '9', '9'] := ⟨by decide, List.all_eq_true.mp (by decide)⟩
  have hhuge : WellFormed ['1', 'e', '9', '9', '9'] :=
    ⟨_, .number (.mk false hone .none (.unsigned (.inl rfl) hexponent))⟩
  have hthree : ∀ text ∈ [quote "trust", ['f', 'a', 'l', 's', 'e'], ['7']], WellFormed text := by
    rw [List.forall_mem_cons, List.forall_mem_cons, List.forall_mem_singleton]
    exact ⟨(spells_quote "trust").wellFormed, ⟨_, .falseWord⟩, hseven.wellFormed⟩
  refine ⟨(hread _ [("x", ['1', 'e', '9', '9', '9']), ("maxDepth", ['7'])] ?_ _).mpr ?_,
    harray _ _ [quote "trust", ['f', 'a', 'l', 's', 'e'], ['7']] (by decide) ?_ ?_,
    harray _ _ [] (by decide) ?_ ?_,
    herror _ [("maxDepth", ['7']), ("maxDepth", ['7'])] ?_ (.inl ⟨.maxDepth, by decide⟩),
    hsurplus _ (.replicate 5 ['7']) ?_ (by decide)⟩
  · exact .object (objectText_quote (by simp) (by simp [hhuge, hseven.wellFormed]) (by decide))
  · rintro (_ | _ | _ | _)
    · exact .inl ⟨rfl, rfl⟩
    · exact .inl ⟨rfl, rfl⟩
    · exact .inr ⟨['7'], rfl, hseven⟩
    · exact .inl ⟨rfl, rfl⟩
  · rw [show "[\"trust\",false,7]".toList =
      '[' :: (separated [quote "trust", ['f', 'a', 'l', 's', 'e'], ['7']] ++ [']']) by decide]
    exact .items (List.cons_ne_nil _ _) hthree
  · exact objectText_quote (List.cons_ne_nil _ _)
      (fun m hm => hthree m.2 (List.of_mem_zip hm).2) (by decide)
  · rw [show "[]".toList = ['[', ']'] by decide]
    exact .empty (List.forall_mem_nil _)
  · rw [show "\x7b\x7d".toList = ['\x7b', '\x7d'] by decide]
    exact .empty (List.forall_mem_nil _)
  · exact .object (objectText_quote (by simp) (by simp [hseven.wellFormed]) (by decide))
  · rw [show "[7,7,7,7,7]".toList = '[' :: (separated (.replicate 5 ['7']) ++ [']']) by decide]
    refine .items (by decide) fun text htext => ?_
    rw [List.eq_of_mem_replicate htext]
    exact hseven.wellFormed

end Options

end TypeGraph
