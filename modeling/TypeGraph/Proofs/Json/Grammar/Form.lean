import TypeGraph.Proofs.Json.Grammar.Scalar

/-!
# Well-formed texts

`Forms cs d` says that the text `cs` is well-formed JSON and looks like the draft `d`. More texts
are well formed than spell a value: a number may be out of range, and half of a surrogate pair may
stand alone, which only a reader that wants the value minds. A well-formed text is read as its draft
(`Forms.takes`), where blanks may be left over and after a number no part of a number may follow. So
it has one draft (`Forms.unique`), and a reader that skips it notices nothing (`Forms.skip`).
-/

namespace TypeGraph

/-! ## Blanks -/

theorem Blanks.append {bs cs : List Char} (hb : Blanks bs) (hc : Blanks cs) : Blanks (bs ++ cs) :=
  List.forall_mem_append.mpr ⟨hb, hc⟩

theorem skipBlanks_append {bs : List Char} (hb : Blanks bs) (cs : List Char) :
    skipBlanks (bs ++ cs) = skipBlanks cs :=
  List.dropWhile_append_of_pos hb

theorem skipBlanks_blanks {bs : List Char} (hb : Blanks bs) : skipBlanks bs = [] :=
  List.dropWhile_eq_nil_iff.mpr hb

theorem exists_blanks (cs : List Char) : ∃ bs, Blanks bs ∧ cs = bs ++ skipBlanks cs :=
  ⟨cs.takeWhile isBlank, fun _ hc => List.mem_takeWhile_imp hc,
    List.takeWhile_append_dropWhile.symm⟩

@[simp] theorem skipBlanks_skipBlanks (cs : List Char) :
    skipBlanks (skipBlanks cs) = skipBlanks cs := by
  obtain ⟨bs, hb, hcs⟩ := exists_blanks cs
  conv_rhs => rw [hcs, skipBlanks_append hb]

namespace Draft

/-- Blanks in front of a value do not matter. -/
theorem valueOfChars_skipBlanks (room levels : Nat) (cs : List Char) :
    valueOfChars room levels (skipBlanks cs) = valueOfChars room levels cs := by
  rw [valueOfChars, valueOfChars, skipBlanks_skipBlanks]

theorem itemsOfChars_skipBlanks (room levels n : Nat) (cs : List Char) :
    itemsOfChars (valueOfChars room levels) n (skipBlanks cs) =
      itemsOfChars (valueOfChars room levels) n cs := by
  cases n with
  | zero => rfl
  | succ n => rw [itemsOfChars, itemsOfChars, valueOfChars_skipBlanks]

theorem entriesOfChars_skipBlanks (value : List Char → Draft × List Char) (n : Nat)
    (cs : List Char) : entriesOfChars value n (skipBlanks cs) = entriesOfChars value n cs := by
  cases n with
  | zero => rfl
  | succ n =>
    rw [entriesOfChars, entriesOfChars, entryOfChars, entryOfChars, skipBlanks_skipBlanks]

end Draft

/-! ## Commas -/

@[simp] theorem separated_singleton (text : List Char) : separated [text] = text := by
  simp [separated, List.intercalate]

theorem separated_cons (text : List Char) {texts : List (List Char)} (hne : texts ≠ []) :
    separated (text :: texts) = text ++ ',' :: separated texts := by
  obtain ⟨t, ts, rfl⟩ := List.exists_cons_of_ne_nil hne
  simp [separated, List.intercalate]

/-! ## Texts -/

/-- A member of an object with its texts, that of the name and that of the value. -/
structure EntryText where
  nameText : List Char
  name : Quoted
  valueText : List Char
  value : Draft

/-- The text of a member: a name, a colon and a value. -/
def EntryText.text (e : EntryText) : List Char := e.nameText ++ ':' :: e.valueText

/-- The member that the text looks like. -/
def EntryText.entry (e : EntryText) : Draft.Entry Draft := ⟨e.name, e.value⟩

/-- What stands between quotes, as far as it stands for characters. -/
def Quoted.ofPieces (ps : List Piece) : Quoted := ⟨(joinPieces none ps).map String.ofList, none⟩

/-- The well-formed texts, and what they look like. -/
inductive Forms : List Char → Draft → Prop
  | padded {before cs after : List Char} {d : Draft} (hb : Blanks before) (ha : Blanks after)
      (h : Forms cs d) : Forms (before ++ (cs ++ after)) d
  | nullWord : Forms ['n', 'u', 'l', 'l'] (.scalar (.ok .null) none)
  | trueWord : Forms ['t', 'r', 'u', 'e'] (.scalar (.ok (.boolean true)) none)
  | falseWord : Forms ['f', 'a', 'l', 's', 'e'] (.scalar (.ok (.boolean false)) none)
  | number {cs : List Char} {n : Numeral} (hn : SpellsNumeral cs n) :
      Forms cs (.scalar (n.value.map .number) none)
  | string {cs : List Char} {ps : List Piece} (hp : SpellsPieces cs ps) :
      Forms ('"' :: (cs ++ ['"'])) (.string (.ofPieces ps))
  | noItems {cs : List Char} (hb : Blanks cs) : Forms ('[' :: (cs ++ [']'])) (.array [] none)
  | array {items : List (List Char × Draft)} (hne : items ≠ []) (h : ∀ i ∈ items, Forms i.1 i.2) :
      Forms ('[' :: (separated (items.map (·.1)) ++ [']'])) (.array (items.map (·.2)) none)
  | noMembers {cs : List Char} (hb : Blanks cs) :
      Forms ('\x7b' :: (cs ++ ['\x7d'])) (.object [] none)
  | object {es : List EntryText} (hne : es ≠ [])
      (hn : ∀ e ∈ es, Forms e.nameText (.string e.name))
      (hv : ∀ e ∈ es, Forms e.valueText e.value) :
      Forms ('\x7b' :: (separated (es.map (·.text)) ++ ['\x7d'])) (.object (es.map (·.entry)) none)

/-- An array of what some things look like, each with a text of its own. -/
theorem Forms.array_map {α : Type} (text : α → List Char) (look : α → Draft) {xs : List α}
    (hne : xs ≠ []) (h : ∀ x ∈ xs, Forms (text x) (look x)) :
    Forms ('[' :: (separated (xs.map text) ++ [']'])) (.array (xs.map look) none) := by
  have hitems : ∀ i ∈ xs.map fun x => (text x, look x), Forms i.1 i.2 := List.forall_mem_map.mpr h
  have hforms := Forms.array (by simpa using hne) hitems
  rwa [List.map_map, List.map_map] at hforms

/-- An object of what some things look like, each with a text of its own. -/
theorem Forms.object_map {α : Type} (entry : α → EntryText) {xs : List α} (hne : xs ≠ [])
    (hn : ∀ x ∈ xs, Forms (entry x).nameText (.string (entry x).name))
    (hv : ∀ x ∈ xs, Forms (entry x).valueText (entry x).value) :
    Forms ('\x7b' :: (separated (xs.map fun x => (entry x).text) ++ ['\x7d']))
      (.object (xs.map fun x => (entry x).entry) none) := by
  have hnames : ∀ e ∈ xs.map entry, Forms e.nameText (.string e.name) :=
    List.forall_mem_map.mpr hn
  have hforms := Forms.object (by simpa using hne) hnames (List.forall_mem_map.mpr hv)
  rwa [List.map_map, List.map_map] at hforms

/-! ## Ends and starts -/

/-- A text in front of which a draft ends. -/
def Draft.Ends (d : Draft) (rest : List Char) : Prop :=
  ∀ v : Except Fault Number, d = .scalar (v.map .number) none → EndsNumber rest

theorem Draft.ends_nil (d : Draft) : d.Ends [] := by
  rintro v - c ⟨⟩

theorem Draft.ends_cons {c : Char} (d : Draft) (rest : List Char)
    (hc : c.isDigit = false ∧ c ≠ '.' ∧ c ≠ 'e' ∧ c ≠ 'E') : d.Ends (c :: rest) := by
  rintro v - c ⟨⟩
  exact hc

theorem EndsNumber.blanks_append {bs rest : List Char} (hb : Blanks bs) (hr : EndsNumber rest) :
    EndsNumber (bs ++ rest) := by
  cases bs with
  | nil => exact hr
  | cons b bs =>
    rintro c ⟨⟩
    have hblank := hb b List.mem_cons_self
    simp only [isBlank, Bool.or_eq_true, decide_eq_true_eq] at hblank
    rcases hblank with ((rfl | rfl) | rfl) | rfl <;> decide

theorem skipBlanks_append_cons {bs : List Char} (hb : Blanks bs) {c : Char} (cs : List Char)
    (hc : isBlank c = false) : skipBlanks (bs ++ c :: cs) = c :: cs := by
  rw [skipBlanks_append hb, Draft.skipBlanks_cons cs hc]

/-- The text of a numeral starts with a sign or a digit. -/
theorem SpellsNumeral.head {cs : List Char} {n : Numeral} (h : SpellsNumeral cs n) :
    ∃ c more, cs = c :: more ∧ (c = '-' ∨ c.isDigit = true) := by
  obtain ⟨negative, hw, hf, he⟩ := h
  rename_i ws fs es fraction exponent
  cases negative with
  | true => exact ⟨_, _, rfl, .inl rfl⟩
  | false =>
    obtain ⟨d, ds, rfl⟩ := List.exists_cons_of_ne_nil hw.ne_nil
    exact ⟨d, _, rfl, .inr (hw.isDigit d List.mem_cons_self)⟩

/-- A text that starts, behind its blanks, with something that ends no array and no object. -/
def StartsValue (cs : List Char) : Prop :=
  ∃ c more, skipBlanks cs = c :: more ∧ isBlank c = false ∧ c ≠ ']' ∧ c ≠ '\x7d'

namespace StartsValue

variable {bs cs : List Char}

theorem blanks_append (hb : Blanks bs) (h : StartsValue cs) : StartsValue (bs ++ cs) := by
  rwa [StartsValue, skipBlanks_append hb]

theorem append (h : StartsValue cs) (rest : List Char) : StartsValue (cs ++ rest) := by
  obtain ⟨c, more, hcs, hc⟩ := h
  obtain ⟨bs, hbs, hsplit⟩ := exists_blanks cs
  rw [hsplit, hcs, List.append_assoc]
  exact blanks_append hbs ⟨c, more ++ rest, Draft.skipBlanks_cons _ hc.1, hc⟩

theorem separated {texts : List (List Char)} (hne : texts ≠ [])
    (h : ∀ text ∈ texts, StartsValue text) : StartsValue (separated texts) := by
  obtain ⟨text, texts, rfl⟩ := List.exists_cons_of_ne_nil hne
  have htext := h text List.mem_cons_self
  cases texts with
  | nil => rwa [separated_singleton]
  | cons t ts =>
    rw [separated_cons _ (List.cons_ne_nil t ts)]
    exact htext.append _

end StartsValue

namespace Forms

variable {cs : List Char} {d : Draft}

theorem startsValue (h : Forms cs d) : StartsValue cs := by
  induction h with
  | padded hb ha h ih => exact (ih.append _).blanks_append hb
  | number hn =>
    obtain ⟨c, more, rfl, hc⟩ := hn.head
    have hblank : isBlank c = false ∧ c ≠ ']' ∧ c ≠ '\x7d' := by
      rcases hc with rfl | hc
      · decide
      · refine ⟨Draft.isBlank_digit hc, ?_, ?_⟩ <;> rintro rfl <;> exact absurd hc (by decide)
    exact ⟨c, more, Draft.skipBlanks_cons _ hblank.1, hblank⟩
  | _ => exact ⟨_, _, rfl, by decide⟩

/-- The text of a string has quotes around its pieces, and blanks around these. -/
theorem string_cases {s : Quoted} (h : Forms cs (.string s)) :
    ∃ bs text ps bs', Blanks bs ∧ Blanks bs' ∧ cs = bs ++ '"' :: (text ++ '"' :: bs') ∧
      SpellsPieces text ps ∧ s = .ofPieces ps := by
  generalize hd : Draft.string s = d at h
  induction h with
  | @padded before cs after d hb ha h ih =>
    obtain ⟨bs, text, ps, bs', hbs, hbs', rfl, htext⟩ := ih hd
    exact ⟨before ++ bs, text, ps, bs' ++ after, hb.append hbs, hbs'.append ha, by simp, htext⟩
  | string hp =>
    cases hd
    exact ⟨[], _, _, [], List.forall_mem_nil _, List.forall_mem_nil _, rfl, hp, rfl⟩
  | _ => cases hd

/-- What is no string does not look like one. -/
theorem scalar_ne_string {s : Except Fault Scalar} {flaw : Option Fault}
    (h : Forms cs (.scalar s flaw)) (t : String) : s ≠ .ok (.string t) := by
  generalize hd : Draft.scalar s flaw = d at h
  induction h with
  | padded hb ha h ih => exact ih hd
  | @number cs n hn =>
    cases hd
    cases n.value <;> exact nofun
  | nullWord | trueWord | falseWord =>
    cases hd
    exact nofun
  | _ => cases hd

end Forms

/-- A string is read up to the quote behind it. -/
theorem Quoted.ofChars_pieces {text : List Char} {ps : List Piece} (hp : SpellsPieces text ps)
    (rest : List Char) : Quoted.ofChars (text ++ '"' :: rest) = (.ofPieces ps, rest) := by
  rw [ofChars, hp.pieces rest]
  rfl

/-! ## Reading -/

namespace Draft

/-- A text of no more than some length is read as a draft, but for blanks behind it. -/
def TakesDraft (value : List Char → Draft × List Char) (bound : Nat) (cs : List Char) (d : Draft) :
    Prop :=
  ∀ rest, (cs ++ rest).length ≤ bound → d.Ends rest →
    ∃ bs, Blanks bs ∧ value (cs ++ rest) = (d, bs ++ rest)

section

variable {value : List Char → Draft × List Char} {bound room : Nat} {rest : List Char}

/-- The items of an array are read up to its end. -/
theorem itemsOfChars_takes {texts : List (List Char × Draft)} (hne : texts ≠ [])
    (h : ∀ i ∈ texts, TakesDraft value bound i.1 i.2)
    (hb : (separated (texts.map (·.1)) ++ ']' :: rest).length ≤ bound)
    (hr : (separated (texts.map (·.1)) ++ ']' :: rest).length ≤ room) :
    itemsOfChars value room (separated (texts.map (·.1)) ++ ']' :: rest) =
      (texts.map (·.2), none, rest) := by
  induction texts generalizing room with
  | nil => exact absurd rfl hne
  | cons i texts ih =>
    rw [List.forall_mem_cons] at h
    cases texts with
    | nil =>
      rw [List.map_singleton, separated_singleton] at hb hr ⊢
      obtain ⟨bs, hbs, hread⟩ := h.1 _ hb (ends_cons _ _ (by decide))
      rw [List.length_append, List.length_cons] at hr
      obtain ⟨room, rfl⟩ : ∃ n, room = n + 1 := ⟨room - 1, by omega⟩
      rw [itemsOfChars, hread]
      simp only [skipBlanks_append_cons hbs rest (by decide : isBlank ']' = false)]
      rfl
    | cons k texts =>
      rw [List.map_cons, separated_cons _ (by simp), List.append_assoc, List.cons_append] at hb hr ⊢
      obtain ⟨bs, hbs, hread⟩ := h.1 _ hb (ends_cons _ _ (by decide))
      rw [List.length_append, List.length_cons] at hb hr
      obtain ⟨room, rfl⟩ : ∃ n, room = n + 1 := ⟨room - 1, by omega⟩
      have hmore := @ih room (List.cons_ne_nil _ _) h.2 (by omega) (by omega)
      rw [itemsOfChars, hread]
      simp only [skipBlanks_append_cons hbs _ (by decide : isBlank ',' = false), hmore]
      rfl

/-- The text of a member whose value is read is read. -/
theorem entryOfChars_takes {e : EntryText} (hn : Forms e.nameText (.string e.name))
    (hv : TakesDraft value bound e.valueText e.value) (hb : (e.text ++ rest).length ≤ bound)
    (hr : e.value.Ends rest) :
    ∃ bs, Blanks bs ∧ entryOfChars value (e.text ++ rest) = (e.entry, bs ++ rest) := by
  obtain ⟨bs, text, ps, bs', hbs, hbs', hname, hp, hs⟩ := hn.string_cases
  have htext : e.text ++ rest =
      bs ++ '"' :: (text ++ '"' :: (bs' ++ ':' :: (e.valueText ++ rest))) := by
    simp [EntryText.text, hname]
  rw [htext] at hb ⊢
  simp only [List.length_append, List.length_cons] at hb
  obtain ⟨cs, hcs, hread⟩ := hv rest (by rw [List.length_append]; omega) hr
  refine ⟨cs, hcs, ?_⟩
  rw [entryOfChars, skipBlanks_append_cons hbs _ rfl]
  simp only [Quoted.ofChars_pieces hp,
    skipBlanks_append_cons hbs' _ (by decide : isBlank ':' = false), hread, EntryText.entry, hs]

/-- The members of an object are read up to its end. -/
theorem entriesOfChars_takes {es : List EntryText} (hne : es ≠ [])
    (hn : ∀ e ∈ es, Forms e.nameText (.string e.name))
    (h : ∀ e ∈ es, TakesDraft value bound e.valueText e.value)
    (hb : (separated (es.map (·.text)) ++ '\x7d' :: rest).length ≤ bound)
    (hr : (separated (es.map (·.text)) ++ '\x7d' :: rest).length ≤ room) :
    entriesOfChars value room (separated (es.map (·.text)) ++ '\x7d' :: rest) =
      (es.map (·.entry), none, rest) := by
  induction es generalizing room with
  | nil => exact absurd rfl hne
  | cons e es ih =>
    rw [List.forall_mem_cons] at h hn
    cases es with
    | nil =>
      rw [List.map_singleton, separated_singleton] at hb hr ⊢
      obtain ⟨bs, hbs, hread⟩ := entryOfChars_takes hn.1 h.1 hb (ends_cons _ _ (by decide))
      rw [List.length_append, List.length_cons] at hr
      obtain ⟨room, rfl⟩ : ∃ n, room = n + 1 := ⟨room - 1, by omega⟩
      rw [entriesOfChars, hread]
      simp only [skipBlanks_append_cons hbs rest (by decide : isBlank '\x7d' = false)]
      rfl
    | cons k es =>
      rw [List.map_cons, separated_cons _ (by simp), List.append_assoc, List.cons_append] at hb hr ⊢
      obtain ⟨bs, hbs, hread⟩ := entryOfChars_takes hn.1 h.1 hb (ends_cons _ _ (by decide))
      rw [List.length_append, List.length_cons] at hb hr
      obtain ⟨room, rfl⟩ : ∃ n, room = n + 1 := ⟨room - 1, by omega⟩
      have hmore := @ih room (List.cons_ne_nil _ _) hn.2 h.2 (by omega) (by omega)
      rw [entriesOfChars, hread]
      simp only [skipBlanks_append_cons hbs _ (by decide : isBlank ',' = false), hmore]
      rfl

end

/-- What stands behind a bracket is read as items unless the array ends at once. -/
theorem valueOfChars_items (room levels : Nat) {cs : List Char} {c : Char} {more : List Char}
    (hcs : skipBlanks cs = c :: more) (hne : c ≠ ']') :
    valueOfChars room (levels + 1) ('[' :: cs) =
      (array (itemsOfChars (valueOfChars room levels) room cs).1
          (itemsOfChars (valueOfChars room levels) room cs).2.1,
        (itemsOfChars (valueOfChars room levels) room cs).2.2) := by
  have hblank : skipBlanks ('[' :: cs) = '[' :: cs := rfl
  rw [valueOfChars]
  simp only [hblank]
  split
  next h =>
    cases hcs.symm.trans h
    exact absurd rfl hne
  next h => cases hcs.symm.trans h
  next => rw [itemsOfChars_skipBlanks]

/-- What stands behind a brace is read as members unless the object ends at once. -/
theorem valueOfChars_entries (room levels : Nat) {cs : List Char} {c : Char} {more : List Char}
    (hcs : skipBlanks cs = c :: more) (hne : c ≠ '\x7d') :
    valueOfChars room (levels + 1) ('\x7b' :: cs) =
      (object (entriesOfChars (valueOfChars room levels) room cs).1
          (entriesOfChars (valueOfChars room levels) room cs).2.1,
        (entriesOfChars (valueOfChars room levels) room cs).2.2) := by
  have hblank : skipBlanks ('\x7b' :: cs) = '\x7b' :: cs := rfl
  rw [valueOfChars]
  simp only [hblank]
  split
  next h =>
    cases hcs.symm.trans h
    exact absurd rfl hne
  next h => cases hcs.symm.trans h
  next => rw [entriesOfChars_skipBlanks]

section

variable {room levels : Nat} {rest : List Char}

/-- A string is read up to the quote behind it. -/
theorem valueOfChars_string {cs : List Char} {ps : List Piece} (hp : SpellsPieces cs ps) :
    valueOfChars room levels ('"' :: (cs ++ '"' :: rest)) = (string (.ofPieces ps), rest) := by
  have hblank : skipBlanks ('"' :: (cs ++ '"' :: rest)) = '"' :: (cs ++ '"' :: rest) := rfl
  rw [valueOfChars]
  simp only [hblank, Quoted.ofChars_pieces hp]

/-- An array without items is read. -/
theorem valueOfChars_noItems {cs : List Char} (hb : Blanks cs) :
    valueOfChars room (levels + 1) ('[' :: (cs ++ ']' :: rest)) = (array [] none, rest) := by
  have hblank : skipBlanks ('[' :: (cs ++ ']' :: rest)) = '[' :: (cs ++ ']' :: rest) := rfl
  rw [valueOfChars]
  simp only [hblank, skipBlanks_append_cons hb rest (by decide : isBlank ']' = false)]

/-- An object without members is read. -/
theorem valueOfChars_noMembers {cs : List Char} (hb : Blanks cs) :
    valueOfChars room (levels + 1) ('\x7b' :: (cs ++ '\x7d' :: rest)) = (object [] none, rest) := by
  have hblank : skipBlanks ('\x7b' :: (cs ++ '\x7d' :: rest)) =
      '\x7b' :: (cs ++ '\x7d' :: rest) := rfl
  rw [valueOfChars]
  simp only [hblank, skipBlanks_append_cons hb rest (by decide : isBlank '\x7d' = false)]

/-- An array is read if its items are. -/
theorem valueOfChars_array {items : List (List Char × Draft)} (hne : items ≠ [])
    (hforms : ∀ i ∈ items, Forms i.1 i.2)
    (htakes : ∀ i ∈ items, TakesDraft (valueOfChars room levels)
      (separated (items.map (·.1)) ++ ']' :: rest).length i.1 i.2)
    (hroom : (separated (items.map (·.1)) ++ ']' :: rest).length ≤ room) :
    valueOfChars room (levels + 1) ('[' :: (separated (items.map (·.1)) ++ ']' :: rest)) =
      (array (items.map (·.2)) none, rest) := by
  have hread := itemsOfChars_takes hne htakes le_rfl hroom
  have hstarts : StartsValue (separated (items.map (·.1))) :=
    .separated (by simpa using hne) (List.forall_mem_map.mpr fun i hi => (hforms i hi).startsValue)
  obtain ⟨c, more, hcs, -, hc, -⟩ := hstarts.append (']' :: rest)
  rw [valueOfChars_items room levels hcs hc, hread]

/-- An object is read if the values of its members are. -/
theorem valueOfChars_object {es : List EntryText} (hne : es ≠ [])
    (hnames : ∀ e ∈ es, Forms e.nameText (.string e.name))
    (htakes : ∀ e ∈ es, TakesDraft (valueOfChars room levels)
      (separated (es.map (·.text)) ++ '\x7d' :: rest).length e.valueText e.value)
    (hroom : (separated (es.map (·.text)) ++ '\x7d' :: rest).length ≤ room) :
    valueOfChars room (levels + 1) ('\x7b' :: (separated (es.map (·.text)) ++ '\x7d' :: rest)) =
      (object (es.map (·.entry)) none, rest) := by
  have hread := entriesOfChars_takes hne hnames htakes le_rfl hroom
  have hstarts : StartsValue (separated (es.map (·.text))) :=
    .separated (by simpa using hne)
      (List.forall_mem_map.mpr fun e he => (hnames e he).startsValue.append _)
  obtain ⟨c, more, hcs, -, -, hc⟩ := hstarts.append ('\x7d' :: rest)
  rw [valueOfChars_entries room levels hcs hc, hread]

end

end Draft

namespace Forms

/-- A well-formed text is read as its draft where there are levels and room enough. -/
theorem takes {cs : List Char} {d : Draft} (h : Forms cs d) (room : Nat) {levels : Nat}
    {rest : List Char} (hroom : (cs ++ rest).length ≤ room) (hlevels : (cs ++ rest).length ≤ levels)
    (hr : d.Ends rest) :
    ∃ bs, Blanks bs ∧ Draft.valueOfChars room levels (cs ++ rest) = (d, bs ++ rest) := by
  induction h generalizing levels rest with
  | @padded before cs after d hb ha h ih =>
    have htext : before ++ (cs ++ after) ++ rest = before ++ (cs ++ (after ++ rest)) := by simp
    rw [htext] at hroom hlevels ⊢
    rw [List.length_append] at hroom hlevels
    obtain ⟨bs, hbs, hread⟩ := @ih levels (after ++ rest) (by omega) (by omega)
      fun v hv => (hr v hv).blanks_append ha
    refine ⟨bs ++ after, hbs.append ha, ?_⟩
    rw [← Draft.valueOfChars_skipBlanks, skipBlanks_append hb, Draft.valueOfChars_skipBlanks,
      hread, List.append_assoc]
  | nullWord | trueWord | falseWord =>
    refine ⟨[], List.forall_mem_nil _, ?_⟩
    rw [Draft.valueOfChars]
    rfl
  | @number cs n hn =>
    obtain ⟨text, rfl, hread⟩ := hn.ofChars (hr n.value rfl)
    refine ⟨[], List.forall_mem_nil _, ?_⟩
    rw [apply_ite (· ++ rest)]
    exact Draft.valueOfChars_numeral hread room levels
  | string hp =>
    rw [List.cons_append, List.append_assoc, List.singleton_append]
    exact ⟨[], List.forall_mem_nil _, Draft.valueOfChars_string hp⟩
  | noItems hb =>
    obtain ⟨levels, rfl⟩ : ∃ n, levels = n + 1 := ⟨levels - 1, by simp at hlevels; omega⟩
    rw [List.cons_append, List.append_assoc, List.singleton_append]
    exact ⟨[], List.forall_mem_nil _, Draft.valueOfChars_noItems hb⟩
  | noMembers hb =>
    obtain ⟨levels, rfl⟩ : ∃ n, levels = n + 1 := ⟨levels - 1, by simp at hlevels; omega⟩
    rw [List.cons_append, List.append_assoc, List.singleton_append]
    exact ⟨[], List.forall_mem_nil _, Draft.valueOfChars_noMembers hb⟩
  | @array items hne h ih =>
    rw [List.cons_append, List.append_assoc, List.singleton_append] at hroom hlevels ⊢
    rw [List.length_cons] at hroom hlevels
    obtain ⟨levels, rfl⟩ : ∃ n, levels = n + 1 := ⟨levels - 1, by omega⟩
    exact ⟨[], List.forall_mem_nil _, Draft.valueOfChars_array hne h
      (fun i hi tail hle hends => ih i hi (by omega) (by omega) hends) (by omega)⟩
  | @object es hne hn hv ihn ihv =>
    rw [List.cons_append, List.append_assoc, List.singleton_append] at hroom hlevels ⊢
    rw [List.length_cons] at hroom hlevels
    obtain ⟨levels, rfl⟩ : ∃ n, levels = n + 1 := ⟨levels - 1, by omega⟩
    exact ⟨[], List.forall_mem_nil _, Draft.valueOfChars_object hne hn
      (fun e he tail hle hends => ihv e he (by omega) (by omega) hends) (by omega)⟩

variable {cs : List Char} {d e : Draft}

/-- A text that starts with a well-formed one is read as the draft of that. -/
theorem ofChars (h : Forms cs d) {rest : List Char} (hr : d.Ends rest) :
    ∃ bs, Blanks bs ∧ Draft.ofChars (cs ++ rest) = (d, bs ++ rest) :=
  h.takes _ le_rfl le_rfl hr

/-- A text looks like one draft at most. -/
theorem unique (hd : Forms cs d) (he : Forms cs e) : d = e := by
  obtain ⟨bs, -, h⟩ := hd.ofChars d.ends_nil
  obtain ⟨bs', -, h'⟩ := he.ofChars e.ends_nil
  exact (Prod.ext_iff.mp (h.symm.trans h')).1

/-- Nothing is noticed in a well-formed text that is skipped. -/
theorem skip (h : Forms cs d) : d.skip = .ok () := by
  induction h with
  | padded hb ha h ih => exact ih
  | @array items hne h ih =>
    have hskip : Draft.skipItems (items.map (·.2)) = .ok () := by
      clear hne h
      induction items with
      | nil => rfl
      | cons i items ihs =>
        rw [List.forall_mem_cons] at ih
        rw [List.map_cons, Draft.skipItems, ih.1]
        exact ihs ih.2
    rw [Draft.skip, hskip]
    rfl
  | @object es hne hn hv ihn ihv =>
    have hskip : Draft.skipEntries (es.map (·.entry)) = .ok () := by
      clear hne hn hv
      induction es with
      | nil => rfl
      | cons e es ihs =>
        rw [List.forall_mem_cons] at ihn ihv
        have hname : Draft.close e.name.flaw = .ok () := ihn.1
        rw [List.map_cons, EntryText.entry, Draft.skipEntries, hname, ihv.1]
        exact ihs ihn.2 ihv.2
    rw [Draft.skip, hskip]
    rfl
  | _ => rfl

end Forms

end TypeGraph
