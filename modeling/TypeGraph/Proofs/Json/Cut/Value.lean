import TypeGraph.Proofs.Json.Cut.Scalar

/-!
# Values that are cut off

A written value that is cut off is read to the end of the text, and whoever keeps it finds the text
cut short; only the beginning of a number may be kept as a number (`Draft.ReadCut`,
`Json.Readable.valueOfChars_cut`). The loops over the parts of arrays and objects are proved for any
reader of their values that does so (`Draft.Meets`): the parts in front of the cut are read whole, and
the part with the cut in it is the last.
-/

namespace TypeGraph

/-! ## Readings that meet the end -/

section

variable {α β : Type}

/-- A reading that meets no other flaw than the end of the text. -/
def MeetsEnd (x : Except Fault α) : Prop := ∀ f, x = .error f → f = .cutShort

theorem meetsEnd_ok (a : α) : MeetsEnd (.ok a : Except Fault α) := nofun

theorem meetsEnd_cutShort : MeetsEnd (.error .cutShort : Except Fault α) := by
  rintro f ⟨⟩
  rfl

theorem MeetsEnd.bind {x : Except Fault α} {g : α → Except Fault β} (hx : MeetsEnd x)
    (hg : ∀ a, x = .ok a → MeetsEnd (g a)) : MeetsEnd (x >>= g) := by
  cases x with
  | error f =>
    rw [hx f rfl]
    exact meetsEnd_cutShort
  | ok a => exact hg a rfl

theorem MeetsEnd.mapM {g : α → Except Fault β} {as : List α} (h : ∀ a ∈ as, MeetsEnd (g a)) :
    MeetsEnd (as.mapM g) := by
  induction as with
  | nil => exact meetsEnd_ok []
  | cons a as ih =>
    rw [List.forall_mem_cons] at h
    rw [List.mapM_cons]
    exact h.1.bind fun b _ => (ih h.2).bind fun bs _ => meetsEnd_ok (b :: bs)

/-- A reading up to the end of the text finds it cut short. -/
theorem MeetsEnd.close {x : Except Fault α} (hx : MeetsEnd x) (g : α → Except Fault β) :
    (x >>= fun a => do
      Draft.close (some .cutShort)
      g a) = .error .cutShort := by
  cases x with
  | error f =>
    rw [hx f rfl]
    rfl
  | ok a => rfl

end

namespace Draft

/-- What comes of a value whose text is cut off: who keeps it finds the text cut short, or, if it is
a number, some other number. -/
def ReadCut (j : Json) (n : Nat) (d : Draft) : Prop :=
  d.toJson n = .error .cutShort ∨ ∃ v w, j = .number v ∧ d.toJson n = .ok (.number w)

theorem ReadCut.meetsEnd {j : Json} {n : Nat} {d : Draft} (h : ReadCut j n d) :
    MeetsEnd (d.toJson n) := by
  rcases h with h | ⟨v, w, -, h⟩
  · rw [h]
    exact meetsEnd_cutShort
  · rw [h]
    exact meetsEnd_ok _

/-- A reader of values reads the text of a value, cut off or not. -/
structure Meets (value : List Char → Draft × List Char) (bound n : Nat) (j : Json) : Prop where
  takes : Takes value bound (j.spell []) j
  cut : ∀ {p}, CutOff (j.spell []) p → p.length ≤ bound → ∃ d, value p = (d, []) ∧ ReadCut j n d
  depth_le : j.depth ≤ n

section

variable {value : List Char → Draft × List Char} {bound room n : Nat} {p : List Char}

theorem Meets.toJson_draft {j : Json} (h : Meets value bound n j) : j.draft.toJson n = .ok j := by
  rw [Json.toJson_draft, decide_eq_true h.depth_le, okIf_true]

/-- The last value of a text that is cut off in it or behind it. -/
theorem Meets.last {j : Json} (h : Meets value bound n j) (hb : p.length ≤ bound)
    (hp : p = j.spell [] ∨ CutOff (j.spell []) p) :
    ∃ d bs, value p = (d, bs) ∧ Blanks bs ∧ MeetsEnd (d.toJson n) := by
  rcases hp with rfl | hp
  · rw [← List.append_nil (j.spell [])] at hb
    obtain ⟨bs, hbs, hread⟩ := h.takes [] hb (endsValue_nil j)
    rw [List.append_nil, List.append_nil] at hread
    exact ⟨j.draft, bs, hread, hbs, by rw [h.toJson_draft]; exact meetsEnd_ok j⟩
  · obtain ⟨d, hread, hd⟩ := h.cut hp hb
    exact ⟨d, [], hread, List.forall_mem_nil _, hd.meetsEnd⟩

/-! ## Arrays -/

theorem itemsOfChars_last {j : Json} (h : Meets value bound n j) (hb : p.length ≤ bound)
    (hp : p = j.spell [] ∨ CutOff (j.spell []) p) :
    ∃ items, itemsOfChars value (room + 1) p = (items, some .cutShort, []) ∧
      ∀ d ∈ items, MeetsEnd (d.toJson n) := by
  obtain ⟨d, bs, hread, hbs, hd⟩ := h.last hb hp
  refine ⟨[d], ?_, List.forall_mem_singleton.mpr hd⟩
  rw [itemsOfChars, hread]
  simp only [skipBlanks_blanks hbs]

/-- The items of an array that is cut off are read up to the cut. -/
theorem itemsOfChars_cut {j : Json} {js : List Json}
    (h : ∀ k ∈ j :: js, Meets value bound n k) (hc : CutOff (j.spell (Json.spellItems js [])) p)
    (hb : p.length ≤ bound) (hr : p.length < room) :
    ∃ items, itemsOfChars value room p = (items, some .cutShort, []) ∧
      ∀ d ∈ items, MeetsEnd (d.toJson n) := by
  induction js generalizing j p room with
  | nil =>
    obtain ⟨room, rfl⟩ : ∃ m, room = m + 1 := ⟨room - 1, by omega⟩
    rw [Json.spell_eq, Json.spellItems] at hc
    rcases hc.at_cases with hlast | ⟨r, -, hr⟩
    · exact itemsOfChars_last (h j List.mem_cons_self) hb hlast
    · exact absurd hr CutOff.not_nil
  | cons k js ih =>
    obtain ⟨room, rfl⟩ : ∃ m, room = m + 1 := ⟨room - 1, by omega⟩
    rw [List.forall_mem_cons] at h
    rw [Json.spell_eq, Json.spellItems] at hc
    rcases hc.at_cases with hlast | ⟨r, rfl, hcut⟩
    · exact itemsOfChars_last h.1 hb hlast
    · -- a whole item, and the cut behind its comma
      obtain ⟨bs, hbs, hread⟩ := h.1.takes (',' :: r) hb (endsValue_cons _ _ (by decide))
      rw [List.length_append, List.length_cons] at hb hr
      obtain ⟨items, hitems, hmeets⟩ := ih h.2 hcut (by omega) (by omega : r.length < room)
      refine ⟨j.draft :: items, ?_, List.forall_mem_cons.mpr ⟨?_, hmeets⟩⟩
      · rw [itemsOfChars, hread]
        simp only [skipBlanks_append_cons hbs _ (by decide : isBlank ',' = false), hitems]
      · rw [h.1.toJson_draft]
        exact meetsEnd_ok j

/-! ## Objects -/

/-- A name that is cut off, or what follows it. -/
theorem entryOfChars_name {name : String} (hp : p = quote name ∨ CutOff (quote name) p) :
    ∃ q, entryOfChars value p = (⟨q, missing⟩, []) ∧ MeetsEnd q.text := by
  have hquote (cs : List Char) : skipBlanks ('"' :: cs) = '"' :: cs := rfl
  have hnil : skipBlanks [] = [] := rfl
  rcases hp with rfl | hp
  · refine ⟨⟨.ok name, none⟩, ?_, meetsEnd_ok name⟩
    rw [quote, List.cons_append, entryOfChars, hquote]
    simp only [Quoted.ofChars_quote, hnil]
  have hp : CutOff ('"' :: (name.toList.flatMap escape ++ ['"'])) p := hp
  rcases hp.cons_cases with rfl | ⟨r, rfl, hr⟩
  · exact ⟨_, rfl, meetsEnd_cutShort⟩
  · refine ⟨⟨.error .cutShort, some .cutShort⟩, ?_, meetsEnd_cutShort⟩
    rw [entryOfChars, hquote]
    simp only [Quoted.ofChars_cut hr, hnil]

/-- Behind a name stands a colon and the value. -/
theorem entryOfChars_colon (name : String) {d : Draft} {cs rest : List Char}
    (h : value cs = (d, rest)) :
    entryOfChars value (quote name ++ ':' :: cs) = (⟨⟨.ok name, none⟩, d⟩, rest) := by
  have htext : quote name ++ ':' :: cs =
      '"' :: (name.toList.flatMap escape ++ '"' :: ':' :: cs) := by simp [quote]
  have hquote (cs : List Char) : skipBlanks ('"' :: cs) = '"' :: cs := rfl
  have hcolon : skipBlanks (':' :: cs) = ':' :: cs := rfl
  rw [htext, entryOfChars, hquote]
  simp only [Quoted.ofChars_quote, hcolon, h]

/-- The last member of a text that is cut off in it or behind it. -/
theorem entryOfChars_last {m : String × Json} (h : Meets value bound n m.2) (hb : p.length ≤ bound)
    (hp : p = quote m.1 ++ ':' :: m.2.spell [] ∨ CutOff (quote m.1 ++ ':' :: m.2.spell []) p) :
    ∃ e bs, entryOfChars value p = (e, bs) ∧ Blanks bs ∧ MeetsEnd (Json.keepEntry n e) := by
  have hvalue {r : List Char} (hb : (quote m.1 ++ ':' :: r).length ≤ bound)
      (hr : r = m.2.spell [] ∨ CutOff (m.2.spell []) r) :
      ∃ e bs, entryOfChars value (quote m.1 ++ ':' :: r) = (e, bs) ∧ Blanks bs ∧
        MeetsEnd (Json.keepEntry n e) := by
    rw [List.length_append, List.length_cons] at hb
    obtain ⟨d, bs, hread, hbs, hd⟩ := h.last (by omega) hr
    exact ⟨_, bs, entryOfChars_colon m.1 hread, hbs, hd.bind fun j _ => meetsEnd_ok (m.1, j)⟩
  rcases hp with rfl | hp
  · exact hvalue hb (.inl rfl)
  rcases hp.at_cases with hname | ⟨r, rfl, hr⟩
  · obtain ⟨q, hread, hq⟩ := entryOfChars_name hname
    refine ⟨_, [], hread, List.forall_mem_nil _, hq.bind fun name _ => ?_⟩
    rw [toJson]
    exact meetsEnd_cutShort
  · exact hvalue hb (.inr hr)

theorem entriesOfChars_last {m : String × Json} (h : Meets value bound n m.2)
    (hb : p.length ≤ bound)
    (hp : p = quote m.1 ++ ':' :: m.2.spell [] ∨ CutOff (quote m.1 ++ ':' :: m.2.spell []) p) :
    ∃ entries, entriesOfChars value (room + 1) p = (entries, some .cutShort, []) ∧
      ∀ e ∈ entries, MeetsEnd (Json.keepEntry n e) := by
  obtain ⟨e, bs, hread, hbs, he⟩ := entryOfChars_last h hb hp
  refine ⟨[e], ?_, List.forall_mem_singleton.mpr he⟩
  rw [entriesOfChars, hread]
  simp only [skipBlanks_blanks hbs]

/-- The members of an object that is cut off are read up to the cut. -/
theorem entriesOfChars_cut {m : String × Json} {ms : List (String × Json)}
    (h : ∀ k ∈ m :: ms, Meets value bound n k.2)
    (hc : CutOff (quote m.1 ++ ':' :: m.2.spell (Json.spellMembers ms [])) p)
    (hb : p.length ≤ bound) (hr : p.length < room) :
    ∃ entries, entriesOfChars value room p = (entries, some .cutShort, []) ∧
      ∀ e ∈ entries, MeetsEnd (Json.keepEntry n e) := by
  induction ms generalizing m p room with
  | nil =>
    obtain ⟨room, rfl⟩ : ∃ m, room = m + 1 := ⟨room - 1, by omega⟩
    rw [Json.spell_eq, Json.spellMembers, ← List.cons_append, ← List.append_assoc] at hc
    rcases hc.at_cases with hlast | ⟨r, -, hr⟩
    · exact entriesOfChars_last (h m List.mem_cons_self) hb hlast
    · exact absurd hr CutOff.not_nil
  | cons k ms ih =>
    obtain ⟨room, rfl⟩ : ∃ m, room = m + 1 := ⟨room - 1, by omega⟩
    rw [List.forall_mem_cons] at h
    rw [Json.spell_eq, Json.spellMembers, ← List.cons_append, ← List.append_assoc] at hc
    rcases hc.at_cases with hlast | ⟨r, rfl, hcut⟩
    · exact entriesOfChars_last h.1 hb hlast
    · -- a whole member, and the cut behind its comma
      rw [List.append_assoc, List.cons_append] at hb hr ⊢
      simp only [List.length_append, List.length_cons] at hb hr
      obtain ⟨bs, hbs, hread⟩ := h.1.takes (',' :: r)
        (by rw [List.length_append, List.length_cons]; omega) (endsValue_cons _ _ (by decide))
      obtain ⟨entries, hentries, hmeets⟩ := ih h.2 hcut (by omega) (by omega : r.length < room)
      refine ⟨Json.draftEntry m :: entries, ?_, List.forall_mem_cons.mpr ⟨?_, hmeets⟩⟩
      · rw [entriesOfChars, entryOfChars_colon m.1 hread]
        simp only [skipBlanks_append_cons hbs _ (by decide : isBlank ',' = false), hentries]
        rfl
      · have hkeep : Json.keepEntry n (Json.draftEntry m) = .ok m := by
          rw [Json.keepEntry, Json.draftEntry, h.1.toJson_draft]
          rfl
        rw [hkeep]
        exact meetsEnd_ok m

end

/-! ## Values -/

/-- What starts a value and is cut off is blank or starts a value. -/
theorem startsValue_cut {text p : List Char} (h : StartsValue text) (hc : CutOff text p) :
    skipBlanks p = [] ∨ StartsValue p := by
  obtain ⟨c, more, htext, hstart⟩ := h
  obtain ⟨q, -, rfl⟩ := hc
  obtain ⟨bs, hbs, hsplit⟩ := exists_blanks p
  cases hp : skipBlanks p with
  | nil => exact .inl rfl
  | cons d ds =>
    have hblank : isBlank d = false := by
      have hhead := List.head?_dropWhile_not isBlank p
      rw [show p.dropWhile isBlank = d :: ds from hp] at hhead
      simpa using hhead
    rw [hp] at hsplit
    rw [hsplit, List.append_assoc, List.cons_append, skipBlanks_append_cons hbs _ hblank] at htext
    obtain ⟨rfl, -⟩ := List.cons.inj htext
    exact .inr ⟨d, ds, hp, hstart⟩

section

variable {room levels n : Nat} {p : List Char}

theorem toJson_array_cut {items : List Draft} (h : ∀ d ∈ items, MeetsEnd (d.toJson n)) :
    (array items (some .cutShort)).toJson (n + 1) = .error .cutShort := by
  rw [toJson]
  exact (MeetsEnd.mapM h).close _

theorem toJson_object_cut {entries : List (Entry Draft)}
    (h : ∀ e ∈ entries, MeetsEnd (Json.keepEntry n e)) :
    (object entries (some .cutShort)).toJson (n + 1) = .error .cutShort := by
  rw [toJson]
  exact (MeetsEnd.mapM h).close _

/-- An array that is cut off, given how its items are read. -/
theorem valueOfChars_bracket (hp : skipBlanks p = [] ∨ StartsValue p ∧ ∃ items,
      itemsOfChars (valueOfChars room levels) room p = (items, some .cutShort, []) ∧
        ∀ d ∈ items, MeetsEnd (d.toJson n)) :
    ∃ d, valueOfChars room (levels + 1) ('[' :: p) = (d, []) ∧
      d.toJson (n + 1) = .error .cutShort := by
  rcases hp with hp | ⟨⟨c, more, hcs, -, hc, -⟩, items, hread, hitems⟩
  · refine ⟨array [] (some .cutShort), ?_, toJson_array_cut (List.forall_mem_nil _)⟩
    have hblank : skipBlanks ('[' :: p) = '[' :: p := rfl
    rw [valueOfChars]
    simp only [hblank, hp]
  · refine ⟨array items (some .cutShort), ?_, toJson_array_cut hitems⟩
    rw [valueOfChars_items room levels hcs hc, hread]

/-- An object that is cut off, given how its members are read. -/
theorem valueOfChars_brace (hp : skipBlanks p = [] ∨ StartsValue p ∧ ∃ entries,
      entriesOfChars (valueOfChars room levels) room p = (entries, some .cutShort, []) ∧
        ∀ e ∈ entries, MeetsEnd (Json.keepEntry n e)) :
    ∃ d, valueOfChars room (levels + 1) ('\x7b' :: p) = (d, []) ∧
      d.toJson (n + 1) = .error .cutShort := by
  rcases hp with hp | ⟨⟨c, more, hcs, -, -, hc⟩, entries, hread, hentries⟩
  · refine ⟨object [] (some .cutShort), ?_, toJson_object_cut (List.forall_mem_nil _)⟩
    have hblank : skipBlanks ('\x7b' :: p) = '\x7b' :: p := rfl
    rw [valueOfChars]
    simp only [hblank, hp]
  · refine ⟨object entries (some .cutShort), ?_, toJson_object_cut hentries⟩
    rw [valueOfChars_entries room levels hcs hc, hread]

theorem readCut_nil (room levels n : Nat) (j : Json) :
    ∃ d, valueOfChars room levels [] = (d, []) ∧ ReadCut j n d :=
  ⟨missing, valueOfChars_nil room levels, .inl (by rw [toJson])⟩

/-- A scalar that is cut off is found cut short, or is the beginning of a number. -/
theorem valueOfChars_cut_scalar {s : Scalar} (hs : ∀ v, s = .number v → v.IsReadable)
    (h : CutOff s.chars p) :
    ∃ d, valueOfChars room levels p = (d, []) ∧ ReadCut (.scalar s) n d := by
  have hmissing := readCut_nil room levels n (.scalar s)
  have hword {ws r : List Char} (hr : CutOff ws r) (t : Scalar) :
      ∃ d, wordOfChars ws t r = (d, []) ∧ ReadCut (.scalar s) n d :=
    ⟨_, wordOfChars_cut hr t, .inl (by rw [flawed, toJson]; rfl)⟩
  cases s with
  | null =>
    rcases h.cons_cases with rfl | ⟨r, rfl, hr⟩
    · exact hmissing
    · rw [valueOfChars]
      exact hword hr .null
  | boolean b =>
    cases b with
    | true =>
      rcases h.cons_cases with rfl | ⟨r, rfl, hr⟩
      · exact hmissing
      · rw [valueOfChars]
        exact hword hr (.boolean true)
    | false =>
      rcases h.cons_cases with rfl | ⟨r, rfl, hr⟩
      · exact hmissing
      · rw [valueOfChars]
        exact hword hr (.boolean false)
  | number v =>
    obtain ⟨d, hread, hd⟩ := valueOfChars_cut_number (hs v rfl) h room levels
    refine ⟨d, hread, (hd n).imp_right fun h => ?_⟩
    obtain ⟨w, hw⟩ := h
    exact ⟨v, w, rfl, hw⟩
  | string s =>
    have h : CutOff ('"' :: (s.toList.flatMap escape ++ ['"'])) p := h
    rcases h.cons_cases with rfl | ⟨r, rfl, hr⟩
    · exact hmissing
    · have hquote : skipBlanks ('"' :: r) = '"' :: r := rfl
      refine ⟨string ⟨.error .cutShort, some .cutShort⟩, ?_, .inl ?_⟩
      · rw [valueOfChars]
        simp only [hquote, Quoted.ofChars_cut hr]
      · rw [toJson]
        rfl

/-- An array that is cut off is found cut short if its items are. -/
theorem valueOfChars_cut_array {js : List Json} (hjs : ∀ k ∈ js, k.Readable)
    (hmeets : ∀ k ∈ js, ∀ {l bound}, bound ≤ l → bound ≤ room →
      Meets (valueOfChars room l) bound n k) (hroom : p.length ≤ room) (hlevels : p.length ≤ levels)
    (h : CutOff ((Json.array js).spell []) p) :
    ∃ d, valueOfChars room levels p = (d, []) ∧ ReadCut (.array js) (n + 1) d := by
  obtain ⟨rest, hrest⟩ := Json.exists_spell_array js []
  rw [hrest] at h
  rcases h.cons_cases with rfl | ⟨r, rfl, hr⟩
  · exact readCut_nil room levels _ _
  rw [List.length_cons] at hroom hlevels
  obtain ⟨l, rfl⟩ : ∃ l, levels = l + 1 := ⟨levels - 1, by omega⟩
  suffices hr : skipBlanks r = [] ∨ StartsValue r ∧ ∃ items,
      itemsOfChars (valueOfChars room l) room r = (items, some .cutShort, []) ∧
        ∀ d ∈ items, MeetsEnd (d.toJson n) by
    obtain ⟨d, hread, hd⟩ := valueOfChars_bracket hr
    exact ⟨d, hread, .inl hd⟩
  cases js with
  | nil =>
    rw [Json.spell] at hrest
    cases hrest
    obtain rfl := hr.nil_of_singleton
    exact .inl rfl
  | cons j js =>
    rw [Json.spell] at hrest
    cases hrest
    have hitems := itemsOfChars_cut (fun k hk => hmeets k hk (by omega : r.length ≤ l) (by omega))
      hr le_rfl (by omega : r.length < room)
    have hstart := (hjs j List.mem_cons_self).spells.startsValue.append (Json.spellItems js [])
    rw [← Json.spell_eq] at hstart
    exact (startsValue_cut hstart hr).imp_right fun h => ⟨h, hitems⟩

/-- An object that is cut off is found cut short if the values of its members are. -/
theorem valueOfChars_cut_object {ms : List (String × Json)}
    (hmeets : ∀ m ∈ ms, ∀ {l bound}, bound ≤ l → bound ≤ room →
      Meets (valueOfChars room l) bound n m.2) (hroom : p.length ≤ room)
    (hlevels : p.length ≤ levels) (h : CutOff ((Json.object ms).spell []) p) :
    ∃ d, valueOfChars room levels p = (d, []) ∧ ReadCut (.object ms) (n + 1) d := by
  obtain ⟨rest, hrest⟩ := Json.exists_spell_object ms []
  rw [hrest] at h
  rcases h.cons_cases with rfl | ⟨r, rfl, hr⟩
  · exact readCut_nil room levels _ _
  rw [List.length_cons] at hroom hlevels
  obtain ⟨l, rfl⟩ : ∃ l, levels = l + 1 := ⟨levels - 1, by omega⟩
  suffices hr : skipBlanks r = [] ∨ StartsValue r ∧ ∃ entries,
      entriesOfChars (valueOfChars room l) room r = (entries, some .cutShort, []) ∧
        ∀ e ∈ entries, MeetsEnd (Json.keepEntry n e) by
    obtain ⟨d, hread, hd⟩ := valueOfChars_brace hr
    exact ⟨d, hread, .inl hd⟩
  cases ms with
  | nil =>
    rw [Json.spell] at hrest
    cases hrest
    obtain rfl := hr.nil_of_singleton
    exact .inl rfl
  | cons m ms =>
    rw [Json.spell] at hrest
    cases hrest
    have hentries := entriesOfChars_cut
      (fun k hk => hmeets k hk (by omega : r.length ≤ l) (by omega)) hr le_rfl
      (by omega : r.length < room)
    have hstart : StartsValue (quote m.1 ++ ':' :: m.2.spell (Json.spellMembers ms [])) :=
      (spells_quote m.1).startsValue.append _
    exact (startsValue_cut hstart hr).imp_right fun h => ⟨h, hentries⟩

end

end Draft

open Draft in
/-- A written value that is cut off is read to the end of the text, and found cut short there or, if
it is a number, taken for another one. -/
theorem Json.Readable.valueOfChars_cut {j : Json} (hj : j.Readable) {room levels n : Nat}
    {p : List Char} (hn : j.depth ≤ n) (hroom : p.length ≤ room) (hlevels : p.length ≤ levels)
    (h : CutOff (j.spell []) p) :
    ∃ d, valueOfChars room levels p = (d, []) ∧ ReadCut j n d := by
  induction hj generalizing levels n p with
  | scalar hs =>
    rw [spell, List.append_nil] at h
    exact valueOfChars_cut_scalar hs h
  | array hjs ih =>
    obtain ⟨m, rfl⟩ : ∃ m, n = m + 1 := ⟨n - 1, by rw [depth] at hn; omega⟩
    rw [depth_array_le_iff] at hn
    refine valueOfChars_cut_array hjs (fun k hk l bound hl hr => ?_) hroom hlevels h
    exact ⟨fun rest hb hend => (hjs k hk).spells.takes room (hb.trans hr) (hb.trans hl) hend,
      fun hc hb => ih k hk (hn k hk) (hb.trans hr) (hb.trans hl) hc, hn k hk⟩
  | object hms ih =>
    obtain ⟨m, rfl⟩ : ∃ m, n = m + 1 := ⟨n - 1, by rw [depth] at hn; omega⟩
    rw [depth_object_le_iff] at hn
    refine valueOfChars_cut_object (fun k hk l bound hl hr => ?_) hroom hlevels h
    exact ⟨fun rest hb hend => (hms k hk).spells.takes room (hb.trans hr) (hb.trans hl) hend,
      fun hc hb => ih k hk (hn k hk) (hb.trans hr) (hb.trans hl) hc, hn k hk⟩

end TypeGraph
