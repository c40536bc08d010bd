import TypeGraph.Proofs.Json.Grammar.Form

/-!
# Values are read by the grammar

What is kept of a text is spelled by the part of it that was read (`Draft.sound_valueOfChars`), and
a text that spells a value is read as this value (`Spells.takes`), where blanks may be left over and
after a number no part of a number may follow. So a text spells one value at most
(`Spells.unique`).
-/

namespace TypeGraph

namespace Spells

variable {bs cs : List Char} {j : Json}

theorem blanks_append (hb : Blanks bs) (h : Spells cs j) : Spells (bs ++ cs) j := by
  have hp := Spells.padded hb (List.forall_mem_nil _) h
  rwa [List.append_nil] at hp

theorem append_blanks (h : Spells cs j) (hb : Blanks bs) : Spells (cs ++ bs) j := by
  show Spells ([] ++ (cs ++ bs)) j
  exact .padded (List.forall_mem_nil _) hb h

end Spells

/-! ## Soundness -/

namespace Draft

/-- An array that is kept has no flaw, and its items are kept. -/
theorem toJson_array_eq_ok {n : Nat} {items : List Draft} {flaw : Option Fault} {j : Json}
    (h : (array items flaw).toJson n = .ok j) :
    ∃ m js, flaw = none ∧ j = .array js ∧
      List.Forall₂ (fun d j => d.toJson m = .ok j) items js := by
  cases n with
  | zero => cases h
  | succ m =>
    obtain ⟨js, hjs, h⟩ := bind_eq_ok_iff.mp h
    cases flaw with
    | some f => cases h
    | none =>
      cases h
      exact ⟨m, js, rfl, rfl, mapM_eq_ok_iff.mp hjs⟩

/-- An object that is kept has no flaw, and its members are kept. -/
theorem toJson_object_eq_ok {n : Nat} {entries : List (Entry Draft)} {flaw : Option Fault}
    {j : Json} (h : (object entries flaw).toJson n = .ok j) :
    ∃ m ms, flaw = none ∧ j = .object ms ∧ List.Forall₂
      (fun e x => e.name.text = .ok x.1 ∧ e.value.toJson m = .ok x.2) entries ms := by
  cases n with
  | zero => cases h
  | succ m =>
    obtain ⟨ms, hms, h⟩ := bind_eq_ok_iff.mp h
    cases flaw with
    | some f => cases h
    | none =>
      cases h
      refine ⟨m, ms, rfl, rfl, (mapM_eq_ok_iff.mp hms).imp fun e x hx => ?_⟩
      obtain ⟨name, hname, hx⟩ := bind_eq_ok_iff.mp hx
      obtain ⟨j, hj, ⟨⟩⟩ := bind_eq_ok_iff.mp hx
      exact ⟨hname, hj⟩

theorem toJson_scalar_eq_ok {n : Nat} {s : Except Fault Scalar} {flaw : Option Fault} {j : Json}
    (h : (scalar s flaw).toJson n = .ok j) : ∃ t, s = .ok t ∧ j = .scalar t := by
  rw [toJson] at h
  obtain ⟨t, ht, ⟨⟩⟩ := bind_eq_ok_iff.mp h
  exact ⟨t, ht, rfl⟩

theorem toJson_string_eq_ok {n : Nat} {s : Quoted} {j : Json}
    (h : (string s).toJson n = .ok j) : ∃ t, s.text = .ok t ∧ j = .string t := by
  rw [toJson] at h
  obtain ⟨t, ht, ⟨⟩⟩ := bind_eq_ok_iff.mp h
  exact ⟨t, ht, rfl⟩

/-- What is flawed from its start on is not kept. -/
theorem toJson_flawed_ne_ok {n : Nat} {f : Fault} {j : Json} : (flawed f).toJson n ≠ .ok j := by
  intro h
  obtain ⟨t, ⟨⟩, -⟩ := toJson_scalar_eq_ok h

end Draft

/-- A string that reads as something is spelled between its quotes. -/
theorem Quoted.spells_of_ofChars {cs rest : List Char} {s : Quoted} {t : String}
    (h : Quoted.ofChars cs = (s, rest)) (ht : s.text = .ok t) :
    ∃ text, cs = text ++ '"' :: rest ∧ Spells ('"' :: (text ++ ['"'])) (.string t) := by
  obtain ⟨ps, flaw, rest', hps⟩ : ∃ ps flaw rest', pieces cs = (ps, flaw, rest') := ⟨_, _, _, rfl⟩
  rw [ofChars, hps] at h
  cases h
  obtain ⟨ds, hds, rfl⟩ : ∃ ds, joinPieces flaw ps = .ok ds ∧ String.ofList ds = t := by
    cases hj : joinPieces flaw ps with
    | error f => simp [hj, Except.map] at ht
    | ok ds => exact ⟨ds, rfl, by simpa [hj, Except.map] using ht⟩
  obtain ⟨rfl, hjoins⟩ := joinPieces_eq_ok_iff.mp hds
  obtain ⟨text, rfl, htext⟩ := spells_of_pieces hps
  exact ⟨text, rfl, .string htext (by rwa [String.toList_ofList])⟩

theorem dropWord_eq_ok {ws cs rest : List Char} (h : dropWord ws cs = .ok rest) :
    cs = ws ++ rest := by
  induction ws generalizing cs with
  | nil =>
    cases h
    rfl
  | cons w ws ih =>
    cases cs with
    | nil => cases h
    | cons c cs =>
      rw [dropWord] at h
      split at h
      next hc => rw [hc, ih h, List.cons_append]
      next => cases h

namespace Draft

/-- A reader of values is sound: what it keeps of a text is spelled by what it takes off it. -/
def Sound (value : List Char → Draft × List Char) : Prop :=
  ∀ {cs rest : List Char} {d : Draft} {n : Nat} {j : Json}, value cs = (d, rest) →
    d.toJson n = .ok j → ∃ text, cs = text ++ rest ∧ Spells text j

section

variable {cs rest : List Char} {d : Draft} {n : Nat} {j : Json}

theorem spells_of_wordOfChars {word : List Char} {s : Scalar}
    (h : wordOfChars word s cs = (d, rest)) (hj : d.toJson n = .ok j) :
    cs = word ++ rest ∧ j = .scalar s := by
  rw [wordOfChars] at h
  split at h
  next hdrop =>
    cases h
    obtain ⟨t, ⟨⟩, rfl⟩ := toJson_scalar_eq_ok hj
    exact ⟨dropWord_eq_ok hdrop, rfl⟩
  next =>
    cases h
    exact absurd hj toJson_flawed_ne_ok

theorem spells_of_numberOfChars {negative : Bool} (h : numberOfChars negative cs = (d, rest))
    (hj : d.toJson n = .ok j) :
    ∃ text, cs = text ++ rest ∧ Spells (if negative then '-' :: text else text) j := by
  rw [numberOfChars] at h
  split at h
  next numeral rest' hread =>
    cases h
    obtain ⟨text, rfl, htext⟩ := Numeral.spells_of_ofChars hread
    obtain ⟨t, ht, rfl⟩ := toJson_scalar_eq_ok hj
    obtain ⟨v, hv, rfl⟩ : ∃ v, numeral.value = .ok v ∧ Scalar.number v = t := by
      cases hv : numeral.value with
      | error f => simp [hv, Except.map] at ht
      | ok v => exact ⟨v, rfl, by simpa [hv, Except.map] using ht⟩
    exact ⟨text, rfl, .number htext hv⟩
  next =>
    cases h
    obtain ⟨t, ⟨⟩, -⟩ := toJson_scalar_eq_ok hj

end

section

variable {value : List Char → Draft × List Char} {cs rest : List Char} {n : Nat}

/-- The items of an array that are kept are spelled with commas between them. -/
theorem spells_of_itemsOfChars (hv : Sound value) {room : Nat} {items : List Draft}
    {js : List Json} (h : itemsOfChars value room cs = (items, none, rest))
    (hjs : List.Forall₂ (fun d j => d.toJson n = .ok j) items js) :
    ∃ texts : List (List Char × Json), texts ≠ [] ∧ (∀ i ∈ texts, Spells i.1 i.2) ∧
      texts.map (·.2) = js ∧ cs = separated (texts.map (·.1)) ++ ']' :: rest := by
  induction room generalizing cs items js with
  | zero => cases h
  | succ room ih =>
    obtain ⟨item, tail, hitem⟩ : ∃ item tail, value cs = (item, tail) := ⟨_, _, rfl⟩
    obtain ⟨bs, hbs, htail⟩ := exists_blanks tail
    rw [itemsOfChars, hitem] at h
    dsimp only at h
    split at h
    next more hmore =>
      obtain ⟨items', flaw, tail', hread⟩ : ∃ items' flaw tail',
        itemsOfChars value room more = (items', flaw, tail') := ⟨_, _, _, rfl⟩
      rw [hread] at h
      cases h
      obtain ⟨j, js, hj, hjs', rfl⟩ := List.forall₂_cons_left_iff.mp hjs
      obtain ⟨text, rfl, htext⟩ := hv hitem hj
      obtain ⟨texts, hne, hspells, rfl, rfl⟩ := ih hread hjs'
      refine ⟨(text ++ bs, j) :: texts, List.cons_ne_nil _ _, ?_, rfl, ?_⟩
      · exact List.forall_mem_cons.mpr ⟨htext.append_blanks hbs, hspells⟩
      · have hne' : texts.map (·.1) ≠ [] := by simpa using hne
        rw [htail, hmore, List.map_cons, separated_cons _ hne']
        simp only [List.append_assoc, List.cons_append]
    next more hmore =>
      cases h
      obtain ⟨j, js, hj, hjs', rfl⟩ := List.forall₂_cons_left_iff.mp hjs
      obtain rfl := List.forall₂_nil_left_iff.mp hjs'
      obtain ⟨text, rfl, htext⟩ := hv hitem hj
      refine ⟨[(text ++ bs, j)], List.cons_ne_nil _ _, ?_, rfl, ?_⟩
      · exact List.forall_mem_singleton.mpr (htext.append_blanks hbs)
      · rw [htail, hmore, List.map_singleton, separated_singleton, List.append_assoc]
    next => cases h
    next => cases h

/-- A member that is kept is spelled as a name, a colon and a value. -/
theorem spells_of_entryOfChars (hv : Sound value) {e : Entry Draft} {x : String × Json}
    (h : entryOfChars value cs = (e, rest))
    (hx : e.name.text = .ok x.1 ∧ e.value.toJson n = .ok x.2) :
    ∃ m : MemberText, m.member = x ∧ Spells m.nameText (.string m.name) ∧
      Spells m.valueText m.value ∧ cs = m.text ++ rest := by
  obtain ⟨hname, hvalue⟩ := hx
  obtain ⟨bs, hbs, hcs⟩ := exists_blanks cs
  rw [entryOfChars] at h
  split at h
  next more hmore =>
    obtain ⟨name, tail, hread⟩ : ∃ name tail, Quoted.ofChars more = (name, tail) := ⟨_, _, rfl⟩
    obtain ⟨bs', hbs', htail⟩ := exists_blanks tail
    rw [hread] at h
    dsimp only at h
    split at h
    next more' hmore' =>
      obtain ⟨d, tail', hd⟩ : ∃ d tail', value more' = (d, tail') := ⟨_, _, rfl⟩
      rw [hd] at h
      cases h
      obtain ⟨nameText, rfl, hn⟩ := Quoted.spells_of_ofChars hread hname
      obtain ⟨valueText, rfl, ht⟩ := hv hd hvalue
      refine ⟨⟨_, x.1, valueText, x.2⟩, rfl, (hn.blanks_append hbs).append_blanks hbs', ht, ?_⟩
      rw [hcs, hmore, htail, hmore', MemberText.text]
      simp only [List.append_assoc, List.cons_append, List.nil_append]
    next =>
      cases h
      exact absurd hvalue toJson_flawed_ne_ok
    next =>
      cases h
      rw [toJson] at hvalue
      cases hvalue
  next =>
    cases h
    cases hname
  next =>
    cases h
    cases hname

/-- The members of an object that are kept are spelled with commas between them. -/
theorem spells_of_entriesOfChars (hv : Sound value) {room : Nat} {entries : List (Entry Draft)}
    {ms : List (String × Json)} (h : entriesOfChars value room cs = (entries, none, rest))
    (hms : List.Forall₂ (fun e x => e.name.text = .ok x.1 ∧ e.value.toJson n = .ok x.2)
      entries ms) :
    ∃ texts : List MemberText, texts ≠ [] ∧
      (∀ m ∈ texts, Spells m.nameText (.string m.name) ∧ Spells m.valueText m.value) ∧
      texts.map (·.member) = ms ∧ cs = separated (texts.map (·.text)) ++ '}' :: rest := by
  induction room generalizing cs entries ms with
  | zero => cases h
  | succ room ih =>
    obtain ⟨entry, tail, hentry⟩ : ∃ entry tail, entryOfChars value cs = (entry, tail) :=
      ⟨_, _, rfl⟩
    obtain ⟨bs, hbs, htail⟩ := exists_blanks tail
    rw [entriesOfChars, hentry] at h
    dsimp only at h
    split at h
    next more hmore =>
      obtain ⟨entries', flaw, tail', hread⟩ : ∃ entries' flaw tail',
        entriesOfChars value room more = (entries', flaw, tail') := ⟨_, _, _, rfl⟩
      rw [hread] at h
      cases h
      obtain ⟨x, ms, hx, hms', rfl⟩ := List.forall₂_cons_left_iff.mp hms
      obtain ⟨m, rfl, hn, ht, rfl⟩ := spells_of_entryOfChars hv hentry hx
      obtain ⟨texts, hne, hspells, rfl, rfl⟩ := ih hread hms'
      refine ⟨⟨m.nameText, m.name, m.valueText ++ bs, m.value⟩ :: texts, List.cons_ne_nil _ _, ?_,
        rfl, ?_⟩
      · exact List.forall_mem_cons.mpr ⟨⟨hn, ht.append_blanks hbs⟩, hspells⟩
      · have hne' : texts.map (·.text) ≠ [] := by simpa using hne
        rw [htail, hmore, List.map_cons, separated_cons _ hne', MemberText.text, MemberText.text]
        simp only [List.append_assoc, List.cons_append]
    next more hmore =>
      cases h
      obtain ⟨x, ms, hx, hms', rfl⟩ := List.forall₂_cons_left_iff.mp hms
      obtain rfl := List.forall₂_nil_left_iff.mp hms'
      obtain ⟨m, rfl, hn, ht, rfl⟩ := spells_of_entryOfChars hv hentry hx
      refine ⟨[⟨m.nameText, m.name, m.valueText ++ bs, m.value⟩], List.cons_ne_nil _ _, ?_, rfl, ?_⟩
      · exact List.forall_mem_singleton.mpr ⟨hn, ht.append_blanks hbs⟩
      · rw [htail, hmore, List.map_singleton, separated_singleton, MemberText.text, MemberText.text]
        simp only [List.append_assoc, List.cons_append]
    next => cases h
    next => cases h

end

section

variable {room levels : Nat} {cs rest : List Char} {d : Draft} {n : Nat} {j : Json}

theorem spells_of_bracket (hv : Sound (valueOfChars room levels))
    (h : valueOfChars room (levels + 1) ('[' :: cs) = (d, rest)) (hj : d.toJson n = .ok j) :
    ∃ text, '[' :: cs = text ++ rest ∧ Spells text j := by
  obtain ⟨bs, hbs, hcs⟩ := exists_blanks cs
  have hblank : skipBlanks ('[' :: cs) = '[' :: cs := rfl
  rw [valueOfChars] at h
  simp only [hblank] at h
  split at h
  next tail htail =>
    cases h
    obtain ⟨m, js, -, rfl, hjs⟩ := toJson_array_eq_ok hj
    obtain rfl := List.forall₂_nil_left_iff.mp hjs
    exact ⟨_, by rw [hcs, htail]; simp, .noItems hbs⟩
  next =>
    cases h
    obtain ⟨m, js, ⟨⟩, -⟩ := toJson_array_eq_ok hj
  next =>
    obtain ⟨items, flaw, tail, hread⟩ : ∃ items flaw tail,
      itemsOfChars (valueOfChars room levels) room cs = (items, flaw, tail) := ⟨_, _, _, rfl⟩
    rw [itemsOfChars_skipBlanks, hread] at h
    cases h
    obtain ⟨m, js, rfl, rfl, hjs⟩ := toJson_array_eq_ok hj
    obtain ⟨texts, hne, hspells, rfl, rfl⟩ := spells_of_itemsOfChars hv hread hjs
    exact ⟨_, by simp, .array hne hspells⟩

theorem spells_of_brace (hv : Sound (valueOfChars room levels))
    (h : valueOfChars room (levels + 1) ('\x7b' :: cs) = (d, rest)) (hj : d.toJson n = .ok j) :
    ∃ text, '\x7b' :: cs = text ++ rest ∧ Spells text j := by
  obtain ⟨bs, hbs, hcs⟩ := exists_blanks cs
  have hblank : skipBlanks ('\x7b' :: cs) = '\x7b' :: cs := rfl
  rw [valueOfChars] at h
  simp only [hblank] at h
  split at h
  next tail htail =>
    cases h
    obtain ⟨m, ms, -, rfl, hms⟩ := toJson_object_eq_ok hj
    obtain rfl := List.forall₂_nil_left_iff.mp hms
    exact ⟨_, by rw [hcs, htail]; simp, .noMembers hbs⟩
  next =>
    cases h
    obtain ⟨m, ms, ⟨⟩, -⟩ := toJson_object_eq_ok hj
  next =>
    obtain ⟨entries, flaw, tail, hread⟩ : ∃ entries flaw tail,
      entriesOfChars (valueOfChars room levels) room cs = (entries, flaw, tail) := ⟨_, _, _, rfl⟩
    rw [entriesOfChars_skipBlanks, hread] at h
    cases h
    obtain ⟨m, ms, rfl, rfl, hms⟩ := toJson_object_eq_ok hj
    obtain ⟨texts, hne, hspells, rfl, rfl⟩ := spells_of_entriesOfChars hv hread hms
    exact ⟨_, by simp, .object hne (fun m hm => (hspells m hm).1) fun m hm => (hspells m hm).2⟩

end

/-- One layer is sound if the layer nested in it is. -/
theorem sound_layer {room levels : Nat}
    (hv : ∀ l, levels = l + 1 → Sound (valueOfChars room l)) :
    Sound (valueOfChars room levels) := by
  intro cs rest d n j h hj
  obtain ⟨bs, hbs, hcs⟩ := exists_blanks cs
  suffices ∃ text, skipBlanks cs = text ++ rest ∧ Spells text j by
    obtain ⟨text, htext, hspells⟩ := this
    exact ⟨bs ++ text, by rw [List.append_assoc, ← htext, ← hcs], hspells.blanks_append hbs⟩
  rw [valueOfChars] at h
  split at h
  next =>
    cases h
    rw [toJson] at hj
    cases hj
  next more hmore =>
    obtain ⟨s, tail, hread⟩ : ∃ s tail, Quoted.ofChars more = (s, tail) := ⟨_, _, rfl⟩
    rw [hread] at h
    cases h
    obtain ⟨t, ht, rfl⟩ := toJson_string_eq_ok hj
    obtain ⟨text, rfl, htext⟩ := Quoted.spells_of_ofChars hread ht
    exact ⟨_, by rw [hmore]; simp, htext⟩
  next more hmore =>
    obtain ⟨rfl, rfl⟩ := spells_of_wordOfChars h hj
    exact ⟨_, hmore, .nullWord⟩
  next more hmore =>
    obtain ⟨rfl, rfl⟩ := spells_of_wordOfChars h hj
    exact ⟨_, hmore, .trueWord⟩
  next more hmore =>
    obtain ⟨rfl, rfl⟩ := spells_of_wordOfChars h hj
    exact ⟨_, hmore, .falseWord⟩
  next more hmore =>
    obtain ⟨text, rfl, htext⟩ := spells_of_numberOfChars h hj
    exact ⟨_, hmore, htext⟩
  next more hmore =>
    cases levels with
    | zero =>
      cases h
      exact absurd hj toJson_flawed_ne_ok
    | succ l =>
      rw [hmore]
      exact spells_of_bracket (hv l rfl) h hj
  next more hmore =>
    cases levels with
    | zero =>
      cases h
      exact absurd hj toJson_flawed_ne_ok
    | succ l =>
      rw [hmore]
      exact spells_of_brace (hv l rfl) h hj
  next c more _ _ _ _ _ _ _ hmore =>
    split at h
    next =>
      obtain ⟨text, htext, hspells⟩ := spells_of_numberOfChars h hj
      exact ⟨text, hmore.trans htext, hspells⟩
    next =>
      cases h
      exact absurd hj toJson_flawed_ne_ok

/-- What is kept of a value is spelled by what was read of the text. -/
theorem sound_valueOfChars (room levels : Nat) : Sound (valueOfChars room levels) := by
  induction levels with
  | zero => exact sound_layer fun l hl => absurd hl (Nat.succ_ne_zero l).symm
  | succ levels ih => exact sound_layer fun l hl => Nat.succ.inj hl ▸ ih

end Draft

/-! ## Completeness -/

/-- A text in front of which a value ends. -/
def EndsValue (j : Json) (rest : List Char) : Prop := ∀ n, j = .number n → EndsNumber rest

theorem endsValue_nil (j : Json) : EndsValue j [] := by
  rintro n - c ⟨⟩

theorem endsValue_cons {c : Char} (j : Json) (rest : List Char)
    (hc : c.isDigit = false ∧ c ≠ '.' ∧ c ≠ 'e' ∧ c ≠ 'E') : EndsValue j (c :: rest) := by
  rintro n - c ⟨⟩
  exact hc

theorem endsValue_object (ms : List (String × Json)) (rest : List Char) :
    EndsValue (.object ms) rest := fun n h => by cases h

namespace Json

/-- A value ends where its draft does. -/
theorem ends_draft {j : Json} {rest : List Char} (h : EndsValue j rest) : j.draft.Ends rest := by
  intro v hv
  cases j with
  | scalar s =>
    cases s with
    | number n => exact h n rfl
    | _ => cases v <;> cases hv
  | _ => cases hv

theorem draft_object (ms : List (String × Json)) :
    (object ms).draft = .object (ms.map draftEntry) none := by rw [draft, draftMembers_eq]

theorem draft_array (js : List Json) : (array js).draft = .array (js.map draft) none := by
  rw [draft, draftItems_eq]

end Json

/-- A text that spells a value is well formed, and looks like it. -/
theorem Spells.forms {cs : List Char} {j : Json} (h : Spells cs j) : Forms cs j.draft := by
  induction h with
  | padded hb ha h ih => exact .padded hb ha ih
  | nullWord => exact .nullWord
  | trueWord => exact .trueWord
  | falseWord => exact .falseWord
  | number hn hv =>
    have hforms := Forms.number hn
    rwa [hv] at hforms
  | string hp hs =>
    have hforms := Forms.string hp
    rwa [Quoted.ofPieces, joinPieces_eq_ok_iff.mpr ⟨rfl, hs⟩, Except.map, String.ofList_toList]
      at hforms
  | noItems hb => exact .noItems hb
  | @array items hne h ih =>
    rw [Json.draft_array, List.map_map]
    exact .array_map (·.1) (·.2.draft) hne ih
  | noMembers hb => exact .noMembers hb
  | @object members hne hn hv ihn ihv =>
    rw [Json.draft_object, List.map_map]
    exact .object_map (fun m => ⟨m.nameText, ⟨.ok m.name, none⟩, m.valueText, m.value.draft⟩) hne
      ihn ihv

theorem Spells.startsValue {cs : List Char} {j : Json} (h : Spells cs j) : StartsValue cs :=
  h.forms.startsValue

/-- A text of no more than some length is read as a value, but for blanks behind it. -/
def Draft.Takes (value : List Char → Draft × List Char) (bound : Nat) (cs : List Char) (j : Json) :
    Prop :=
  ∀ rest, (cs ++ rest).length ≤ bound → EndsValue j rest →
    ∃ bs, Blanks bs ∧ value (cs ++ rest) = (j.draft, bs ++ rest)

/-- A text that spells a value is read as this value where there are levels and room enough. -/
theorem Spells.takes {cs : List Char} {j : Json} (h : Spells cs j) (room : Nat) {levels : Nat}
    {rest : List Char} (hroom : (cs ++ rest).length ≤ room) (hlevels : (cs ++ rest).length ≤ levels)
    (hr : EndsValue j rest) :
    ∃ bs, Blanks bs ∧ Draft.valueOfChars room levels (cs ++ rest) = (j.draft, bs ++ rest) :=
  h.forms.takes room hroom hlevels (Json.ends_draft hr)

/-! ## Whole texts -/

/-- A text that starts with a value is read as this value. -/
theorem Spells.ofChars {cs : List Char} {j : Json} (h : Spells cs j) {rest : List Char}
    (hr : EndsValue j rest) :
    ∃ bs, Blanks bs ∧ Draft.ofChars (cs ++ rest) = (j.draft, bs ++ rest) :=
  h.takes _ le_rfl le_rfl hr

/-- What is kept of a text is spelled in front of what is left of it. -/
theorem Draft.spells_of_ofChars {cs rest : List Char} {d : Draft} {n : Nat} {j : Json}
    (h : ofChars cs = (d, rest)) (hj : d.toJson n = .ok j) :
    ∃ text, cs = text ++ rest ∧ Spells text j :=
  sound_valueOfChars _ _ h hj

theorem Json.draft_injective {j k : Json} (h : j.draft = k.draft) : j = k := by
  have hj := toJson_draft (max j.depth k.depth) j
  have hk := toJson_draft (max j.depth k.depth) k
  rw [decide_eq_true (le_max_left ..), okIf_true] at hj
  rw [decide_eq_true (le_max_right ..), okIf_true, ← h, hj] at hk
  exact Except.ok.inj hk

/-- A text spells one value at most. -/
theorem Spells.unique {cs : List Char} {j k : Json} (hj : Spells cs j) (hk : Spells cs k) :
    j = k := by
  obtain ⟨bs, -, h⟩ := hj.ofChars (endsValue_nil j)
  obtain ⟨bs', -, h'⟩ := hk.ofChars (endsValue_nil k)
  rw [h] at h'
  exact Json.draft_injective (Prod.ext_iff.mp h').1

/-- A well-formed text is kept as the value that it spells. -/
theorem Forms.toJson_eq_ok_iff {cs : List Char} {d : Draft} (h : Forms cs d) {n : Nat} {j : Json}
    (hn : j.depth ≤ n) : d.toJson n = .ok j ↔ Spells cs j := by
  constructor
  · intro hj
    obtain ⟨bs, hbs, hread⟩ := h.ofChars d.ends_nil
    rw [List.append_nil, List.append_nil] at hread
    obtain ⟨text, rfl, htext⟩ := Draft.spells_of_ofChars hread hj
    exact htext.append_blanks hbs
  · intro hj
    rw [h.unique hj.forms, Json.toJson_draft, decide_eq_true hn, okIf_true]

/-! ## Parts of a text -/

/-- A text is well-formed JSON. -/
def WellFormed (cs : List Char) : Prop := ∃ d, Forms cs d

theorem Spells.wellFormed {cs : List Char} {j : Json} (h : Spells cs j) : WellFormed cs :=
  ⟨_, h.forms⟩

/-- The texts of an array, with those of its items. -/
inductive ArrayText : List Char → List (List Char) → Prop
  | padded {before cs after : List Char} {texts : List (List Char)} (hb : Blanks before)
      (ha : Blanks after) (h : ArrayText cs texts) : ArrayText (before ++ (cs ++ after)) texts
  | empty {cs : List Char} (hb : Blanks cs) : ArrayText ('[' :: (cs ++ [']'])) []
  | items {texts : List (List Char)} (hne : texts ≠ []) (h : ∀ text ∈ texts, WellFormed text) :
      ArrayText ('[' :: (separated texts ++ [']'])) texts

/-- The texts of an object, with the names of its members and the texts of their values. -/
inductive ObjectText : List Char → List (String × List Char) → Prop
  | padded {before cs after : List Char} {ms : List (String × List Char)} (hb : Blanks before)
      (ha : Blanks after) (h : ObjectText cs ms) : ObjectText (before ++ (cs ++ after)) ms
  | empty {cs : List Char} (hb : Blanks cs) : ObjectText ('\x7b' :: (cs ++ ['\x7d'])) []
  /-- each member with the text of its name in front -/
  | members {ms : List (List Char × String × List Char)} (hne : ms ≠ [])
      (hn : ∀ m ∈ ms, Spells m.1 (.string m.2.1)) (hv : ∀ m ∈ ms, WellFormed m.2.2) :
      ObjectText ('\x7b' :: (separated (ms.map fun m => m.1 ++ ':' :: m.2.2) ++ ['\x7d']))
        (ms.map (·.2))

/-- The drafts of some members. -/
def Draft.entries (ds : List (String × Draft)) : List (Entry Draft) :=
  ds.map fun m => ⟨⟨.ok m.1, none⟩, m.2⟩

theorem Draft.members_entries (ds : List (String × Draft)) :
    members (entries ds) none = (ds, none) := by
  induction ds with
  | nil => rfl
  | cons m ds ih =>
    rw [entries, List.map_cons, members]
    dsimp only
    rw [← entries, ih]

/-- A text of a member looks like a member of the same name. -/
def MemberForms (m : String × List Char) (d : String × Draft) : Prop := d.1 = m.1 ∧ Forms m.2 d.2

theorem ArrayText.forms {cs : List Char} {texts : List (List Char)} (h : ArrayText cs texts) :
    ∃ ds, Forms cs (.array ds none) ∧ List.Forall₂ Forms texts ds := by
  have : Nonempty Draft := ⟨.missing⟩
  induction h with
  | padded hb ha h ih => exact ih.imp fun ds hds => ⟨.padded hb ha hds.1, hds.2⟩
  | empty hb => exact ⟨[], .noItems hb, .nil⟩
  | @items texts hne h =>
    choose! looks hlooks using h
    have hforms := Forms.array_map id looks hne hlooks
    rw [List.map_id] at hforms
    refine ⟨texts.map looks, hforms, ?_⟩
    exact List.forall₂_map_right_iff.mpr (List.forall₂_same.mpr hlooks)

theorem ObjectText.forms {cs : List Char} {ms : List (String × List Char)} (h : ObjectText cs ms) :
    ∃ ds, Forms cs (.object (Draft.entries ds) none) ∧ List.Forall₂ MemberForms ms ds := by
  have : Nonempty Draft := ⟨.missing⟩
  induction h with
  | padded hb ha h ih => exact ih.imp fun ds hds => ⟨.padded hb ha hds.1, hds.2⟩
  | empty hb => exact ⟨[], .noMembers hb, .nil⟩
  | @members ms hne hn hv =>
    have hv' : ∀ m ∈ ms, ∃ d, Forms m.2.2 d := hv
    choose! looks hlooks using hv'
    refine ⟨ms.map fun m => (m.2.1, looks m), ?_, ?_⟩
    · rw [Draft.entries, List.map_map]
      exact .object_map (fun m => ⟨m.1, ⟨.ok m.2.1, none⟩, m.2.2, looks m⟩) hne
        (fun m hm => (hn m hm).forms) hlooks
    · rw [List.forall₂_map_right_iff, List.forall₂_map_left_iff]
      exact List.forall₂_same.mpr fun m hm => ⟨rfl, hlooks m hm⟩

end TypeGraph
