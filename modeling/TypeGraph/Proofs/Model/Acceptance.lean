import TypeGraph.Proofs.Model.RoundTrip
import TypeGraph.Proofs.Model.Schema

/-!
# Which texts are read as a model

A text is read as a model if it spells one object, not nested too deep, whose members describe the
model (`Model.ofText_eq_ok_iff`). A text that starts with a brace and is not read so is refused for
the first of three reasons: its object is flawed, describes no model, or is followed by something
else than blanks (`Model.Verdict`, `Model.ofText_accepts`).
-/

namespace TypeGraph

open View

/-! ## Drafts of objects -/

/-- What is read as a model was kept as an object. -/
theorem Model.toJson_of_ofDraft {H : Type} {levels : Nat} {d : Draft} {m : Model H}
    (h : ofDraft levels d = .ok m) : ∃ ms, d.toJson levels = .ok (.object ms) := by
  obtain ⟨l, hl, h⟩ := bind_eq_ok_iff.mp h
  cases l with
  | map ms flaw =>
    obtain ⟨j, hj, h⟩ := bind_eq_ok_iff.mp h
    cases hd : d.toJson levels with
    | error f =>
      rw [hd] at hj
      cases hj
    | ok k =>
      rw [hd] at hj
      cases hj
      cases j with
      | object ms => exact ⟨ms, rfl⟩
      | array js => cases h
      | scalar s => cases h
  | _ => cases h

/-! ## Texts -/

/-- A text starts with an object, and this does not nest too deep. -/
def StartsWith (text : String) (ms : Members) : Prop :=
  ∃ cs rest, text.toList = cs ++ rest ∧ Spells cs (.object ms) ∧
    (Json.object ms).depth ≤ maxNesting

/-- The text of an object is read as what it describes, if it does not nest too deep; then nothing
but blanks may follow. -/
theorem Model.ofText_object {H : Type} {text : String} {cs rest : List Char} {ms : Members}
    (ht : text.toList = cs ++ rest) (h : Spells cs (.object ms)) :
    (ofText text : Except Problem (Model H)) =
      (if (Json.object ms).depth ≤ maxNesting then ofMembers maxNesting ms
        else .error (.fault .malformed)) >>= fun m =>
      if skipBlanks rest = [] then .ok m else .error (.fault .malformed) := by
  rw [ofText, readText_of_spells _ ht h (endsValue_object ms rest), ofDraft_object]

/-- A text is read as a model if it spells an object that describes the model. -/
theorem Model.ofText_eq_ok_iff {H : Type} (text : String) (m : Model H) :
    ofText text = .ok m ↔ ∃ ms, Spells text.toList (.object ms) ∧
      (Json.object ms).depth ≤ maxNesting ∧ m.Fits ms := by
  have hspelled {ms : Members} (h : Spells text.toList (.object ms)) :
      ofText text = .ok m ↔ (Json.object ms).depth ≤ maxNesting ∧ m.Fits ms := by
    rw [ofText_object (List.append_nil _).symm h]
    split
    next hdepth =>
      rw [and_iff_right hdepth, ← (reads_ofMembers hdepth).ok_iff m]
      cases (ofMembers maxNesting ms : Except Problem (Model H)) <;> rfl
    next hdepth => exact ⟨nofun, fun h => absurd h.1 hdepth⟩
  constructor
  · intro h
    have h' := h
    rw [ofText, readText] at h'
    obtain ⟨d, rest, hread⟩ : ∃ d rest, Draft.ofChars text.toList = (d, rest) := ⟨_, _, rfl⟩
    rw [hread] at h'
    obtain ⟨n, hn, hrest⟩ := bind_eq_ok_iff.mp h'
    obtain ⟨ms, hj⟩ := toJson_of_ofDraft hn
    obtain ⟨cs, htext, hcs⟩ := Draft.spells_of_ofChars hread hj
    obtain ⟨bs, hbs, hblank⟩ := exists_blanks rest
    have hnil : skipBlanks rest = [] := by
      cases hs : skipBlanks rest with
      | nil => rfl
      | cons c cs =>
        rw [hs] at hrest
        cases hrest
    rw [hnil, List.append_nil] at hblank
    have hspells : Spells text.toList (.object ms) := by
      rw [htext, hblank]
      exact hcs.append_blanks hbs
    exact ⟨ms, hspells, (hspelled hspells).mp h⟩
  · rintro ⟨ms, hspells, h⟩
    exact (hspelled hspells).mpr h

/-- Behind a brace an object is read, as far as it is well formed. -/
theorem Draft.ofChars_brace {cs more : List Char} (h : skipBlanks cs = '\x7b' :: more) :
    ∃ entries flaw rest, ofChars cs = (object entries flaw, rest) := by
  obtain ⟨n, hn⟩ : ∃ n, cs.length = n + 1 := by
    cases cs with
    | nil => cases h
    | cons c cs => exact ⟨cs.length, rfl⟩
  have hblank : skipBlanks ('\x7b' :: more) = '\x7b' :: more := rfl
  rw [ofChars, hn, ← valueOfChars_skipBlanks, h, valueOfChars]
  simp only [hblank]
  split
  · exact ⟨_, _, _, rfl⟩
  · exact ⟨_, _, _, rfl⟩
  · exact ⟨_, _, _, rfl⟩

/-- A flaw of an object is the reason not to read it as a model. -/
theorem Model.ofText_of_fault {H : Type} {text : String} {entries : List (Draft.Entry Draft)}
    {flaw : Option Fault} {rest : List Char} {f : Fault}
    (hread : Draft.ofChars text.toList = (.object entries flaw, rest))
    (hj : (Draft.object entries flaw).toJson maxNesting = .error f) :
    (ofText text : Except Problem (Model H)) = .error (.fault f) := by
  rw [ofText, readText, hread]
  simp only [ofDraft, Draft.view, hj]
  rfl

/-- What comes of reading a text that starts with a brace. A flaw of the object is found first, then
that it describes no model, and at last that something follows. -/
inductive Model.Verdict {H : Type} (text : String) : Except Problem (Model H) → Prop
  | flawed (f : Fault) (h : ∀ ms, ¬ StartsWith text ms) : Verdict text (.error (.fault f))
  | mismatch (e : Mismatch) {ms : Members} (h : StartsWith text ms)
      (hm : ∀ m : Model H, ¬ m.Fits ms) : Verdict text (.error (.mismatch e))
  | trailing {ms : Members} {m : Model H} (h : StartsWith text ms) (hm : m.Fits ms)
      (ht : ¬ Spells text.toList (.object ms)) : Verdict text (.error (.fault .malformed))
  | model {ms : Members} {m : Model H} (h : Spells text.toList (.object ms))
      (hd : (Json.object ms).depth ≤ maxNesting) (hm : m.Fits ms) : Verdict text (.ok m)

theorem Model.verdict_of_startsWith {H : Type} {text : String} {ms : Members}
    (h : StartsWith text ms) : Verdict (H := H) text (ofText text) := by
  obtain ⟨cs, rest, htext, hcs, hdepth⟩ := id h
  have hreads := reads_ofMembers (H := H) hdepth
  rw [ofText_object htext hcs, if_pos hdepth]
  cases hm : (ofMembers maxNesting ms : Except Problem (Model H)) with
  | error p =>
    cases p with
    | fault f => exact absurd hm (hreads.ne_fault f)
    | mismatch e =>
      refine .mismatch e h fun m hfits => ?_
      rw [(hreads.ok_iff m).mpr hfits] at hm
      cases hm
  | ok m =>
    have hfits := (hreads.ok_iff m).mp hm
    show Verdict text (if skipBlanks rest = [] then .ok m else .error (.fault .malformed))
    split
    next hrest =>
      obtain ⟨bs, hbs, hblank⟩ := exists_blanks rest
      rw [hrest, List.append_nil] at hblank
      exact .model (by rw [htext, hblank]; exact hcs.append_blanks hbs) hdepth hfits
    next hrest =>
      refine .trailing h hfits fun hall => hrest ?_
      -- what is left over is the same, whether the whole text or its start is the object
      obtain ⟨bs, hbs, hread⟩ := hall.ofChars (endsValue_nil _)
      obtain ⟨bs', hbs', hread'⟩ := hcs.ofChars (endsValue_object ms rest)
      rw [List.append_nil, htext, hread', List.append_nil] at hread
      have hleft : bs' ++ rest = bs := (Prod.ext_iff.mp hread).2
      rw [← skipBlanks_append hbs' rest, hleft]
      exact skipBlanks_blanks hbs

theorem Model.verdict_of_not_startsWith {H : Type} {text : String}
    (hb : (skipBlanks text.toList).head? = some '\x7b') (h : ∀ ms, ¬ StartsWith text ms) :
    Verdict (H := H) text (ofText text) := by
  obtain ⟨more, hmore⟩ : ∃ more, skipBlanks text.toList = '\x7b' :: more :=
    List.head?_eq_some_iff.mp hb
  obtain ⟨entries, flaw, rest, hread⟩ := Draft.ofChars_brace hmore
  cases hj : (Draft.object entries flaw).toJson maxNesting with
  | error f =>
    rw [ofText_of_fault hread hj]
    exact .flawed f h
  | ok j =>
    -- an object that is kept is spelled by the start of the text
    exfalso
    obtain ⟨cs, htext, hcs⟩ := Draft.spells_of_ofChars hread hj
    obtain ⟨_, ms, rfl, rfl, -⟩ := Draft.toJson_object_eq_ok hj
    obtain ⟨bs, -, hread'⟩ := hcs.ofChars (endsValue_object ms rest)
    rw [← htext, hread] at hread'
    have hdraft : Draft.object entries none = (Json.object ms).draft := (Prod.ext_iff.mp hread').1
    rw [hdraft, Json.toJson_draft] at hj
    refine h ms ⟨cs, rest, htext, hcs, ?_⟩
    by_contra hdeep
    rw [decide_eq_false hdeep] at hj
    cases hj

/-- A text that starts with a brace is read as a model exactly if it is one well-formed object, not
nested too deep, and the object describes the model; if it is not read, the first reason for that
decides on the problem. -/
theorem Model.ofText_accepts {H : Type} {text : String}
    (hb : (skipBlanks text.toList).head? = some '\x7b') :
    (∀ m : Model H, ofText text = .ok m ↔ ∃ ms, Spells text.toList (.object ms) ∧
      (Json.object ms).depth ≤ maxNesting ∧ m.Fits ms) ∧
    Verdict (H := H) text (ofText text) := by
  refine ⟨ofText_eq_ok_iff text, ?_⟩
  by_cases h : ∃ ms, StartsWith text ms
  · obtain ⟨ms, hms⟩ := h
    exact verdict_of_startsWith hms
  · exact verdict_of_not_startsWith hb (not_exists.mp h)

/-- An array of strings, with the payload in front of its kind and the inner kind given by its
number. -/
theorem Model.ofText_accepts_reordered :
    (ofText " \x7b\"type\": \x7b\"kind\":2\x7d, \"kind\":\"array\"\x7d " :
      Except Problem (Model Unit)) = .ok (.array (.ofAtom .string)) := by
  let ms : Members :=
    [("type", .object [("kind", .number (.integer 2))]), ("kind", .string "array")]
  have hread : Draft.ofChars
      " \x7b\"type\": \x7b\"kind\":2\x7d, \"kind\":\"array\"\x7d ".toList =
        ((Json.object ms).draft, [' ']) := rfl
  have hjson : (Json.object ms).draft.toJson 2 = .ok (.object ms) := rfl
  obtain ⟨cs, htext, hcs⟩ := Draft.spells_of_ofChars hread hjson
  have hdepth : (Json.object ms).depth ≤ 2 := le_rfl
  have hfits : (array (ofAtom .string) : Model Unit).Fits ms :=
    ((reads_ofMembers hdepth).ok_iff _).mp rfl
  have hblanks : Blanks [' '] := by decide
  have hspells := hcs.append_blanks hblanks
  rw [← htext] at hspells
  exact ((ofText_accepts (by decide)).1 _).mpr ⟨ms, hspells, by decide, hfits⟩

end TypeGraph
