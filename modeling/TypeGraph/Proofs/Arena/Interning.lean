import TypeGraph.Proofs.Arena.Growth

/-!
# Interned literals

A literal that is made again is looked up, and a `define` does not know of that. So the type of a
literal has the entry that a `define` gave it last, and that of the literal only if there was none
(`Arena.type?_stringLiteral`, `Arena.type?_numberLiteral`). This holds of everything that can be
looked up (`Arena.Interns`) and is kept by each command (`Arena.Interns.run`), as long as there are
handles for all types.
-/

namespace TypeGraph

namespace Arena

variable {a b c : Arena} {ds : List (TypeId × TypeEntry)} {id k : TypeId} {entry : TypeEntry}

/-- The entry that a type was given last. -/
def lastGiven? (ds : List (TypeId × TypeEntry)) (id : TypeId) : Option TypeEntry :=
  ds.reverse.lookup id

theorem lastGiven?_append (ds : List (TypeId × TypeEntry)) (id : TypeId) (entry : TypeEntry)
    (k : TypeId) :
    lastGiven? (ds ++ [(id, entry)]) k = if k = id then some entry else lastGiven? ds k := by
  rw [lastGiven?, List.reverse_append, List.reverse_singleton, List.singleton_append,
    List.lookup_cons]
  by_cases hk : k = id
  · rw [if_pos hk, beq_iff_eq.mpr hk]
  · rw [if_neg hk, beq_eq_false_iff_ne.mpr hk]
    rfl

/-- What a table finds for a key has the entry that it was given last, and if it was given none the
one that belongs to the key. -/
def Recalls {K : Type} [BEq K] [Hashable K] (a : Arena) (ds : List (TypeId × TypeEntry))
    (table : Std.HashMap K TypeId) (made : K → TypeEntry) : Prop :=
  ∀ key id, table[key]? = some id → a.type? id = some ((lastGiven? ds id).getD (made key))

/-- All types that were given an entry are there, and both tables find what has the entry it was
given last. -/
structure Interns (a : Arena) (ds : List (TypeId × TypeEntry)) : Prop where
  known : ∀ d ∈ ds, (a.type? d.1).isSome
  strings : a.Recalls ds a.strings fun value => .plain [.stringLiteral] (.string value)
  numbers : a.Recalls ds a.numbers fun bits => .plain [.numberLiteral] (.number ⟨bits⟩)

/-- Nothing can be looked up in the arena without further types. -/
theorem interns_new : new.Interns [] where
  known _ hd := absurd hd List.not_mem_nil
  strings key id hk := by simp [new] at hk
  numbers key id hk := by simp [new] at hk

/-! ## Additions -/

section

variable {K : Type} [BEq K] [Hashable K] {table : Std.HashMap K TypeId} {made : K → TypeEntry}

theorem Recalls.grows (h : a.Recalls ds table made) (hg : a.Grows b) : b.Recalls ds table made :=
  fun key id hk => hg.types (h key id hk)

theorem known_grows (h : ∀ d ∈ ds, (a.type? d.1).isSome) (hg : a.Grows b) :
    ∀ d ∈ ds, (b.type? d.1).isSome := by
  intro d hd
  obtain ⟨entry, he⟩ := Option.isSome_iff_exists.mp (h d hd)
  exact Option.isSome_iff_exists.mpr ⟨entry, hg.types he⟩

theorem toNat_fst_push (entry : TypeEntry) (hs : (a.push entry).2.types.size ≤ UInt32.size) :
    (a.push entry).1.index.toNat = a.types.size := by
  have hsize : (a.push entry).2.types.size = a.types.size + 1 := Array.size_push ..
  exact UInt32.toNat_ofNat_of_lt' (by omega)

/-- The type that comes next has not been given an entry. -/
theorem lastGiven?_push (h : ∀ d ∈ ds, (a.type? d.1).isSome) (entry : TypeEntry)
    (hs : (a.push entry).2.types.size ≤ UInt32.size) :
    lastGiven? ds (a.push entry).1 = none := by
  refine List.lookup_eq_none_iff.mpr fun d hd => bne_iff_ne.mpr fun he => ?_
  have hlt : d.1.index.toNat < a.types.size :=
    index_lt_size_iff.mpr (h d (List.mem_reverse.mp hd))
  rw [← he, toNat_fst_push entry hs] at hlt
  exact Nat.lt_irrefl _ hlt

/-- The type that comes next may be put into the table if it gets the entry for its key. -/
theorem Recalls.insert [LawfulBEq K] [LawfulHashable K] (h : a.Recalls ds table made)
    (hd : ∀ d ∈ ds, (a.type? d.1).isSome) (key : K)
    (hs : (a.push (made key)).2.types.size ≤ UInt32.size) :
    (a.push (made key)).2.Recalls ds (table.insert key (a.push (made key)).1) made := by
  intro key' id hk
  rw [Std.HashMap.getElem?_insert] at hk
  split at hk
  next he =>
    obtain rfl : key = key' := eq_of_beq he
    obtain rfl := Option.some.inj hk
    rw [lastGiven?_push hd _ hs, Option.getD_none, type?, toNat_fst_push _ hs]
    exact a.types_push _
  next => exact (h.grows (a.grows_push _)) key' id hk

end

theorem Interns.grows (h : a.Interns ds) (hg : a.Grows b) (hs : b.strings = a.strings)
    (hn : b.numbers = a.numbers) : b.Interns ds where
  known := known_grows h.known hg
  strings := hs ▸ h.strings.grows hg
  numbers := hn ▸ h.numbers.grows hg

theorem stringLiteral_of_some {value : String} (h : a.strings[value]? = some id) :
    a.stringLiteral value = (id, a) := by rw [stringLiteral, h]

theorem stringLiteral_of_none {value : String} (h : a.strings[value]? = none) :
    let made := a.push (.plain [.stringLiteral] (.string value))
    a.stringLiteral value =
      (made.1, { made.2 with strings := a.strings.insert value made.1 }) := by
  rw [stringLiteral, h]
  rfl

theorem numberLiteral_of_some {value : Double} (h : a.numbers[value.bits]? = some id) :
    a.numberLiteral value = (id, a) := by rw [numberLiteral, h]

theorem numberLiteral_of_none {value : Double} (h : a.numbers[value.bits]? = none) :
    let made := a.push (.plain [.numberLiteral] (.number value))
    a.numberLiteral value =
      (made.1, { made.2 with numbers := a.numbers.insert value.bits made.1 }) := by
  rw [numberLiteral, h]
  rfl

theorem strings_stringLiteral (a : Arena) (value : String) :
    (a.stringLiteral value).2.strings[value]? = some (a.stringLiteral value).1 := by
  cases hv : a.strings[value]? with
  | some id => rw [stringLiteral_of_some hv, hv]
  | none => rw [stringLiteral_of_none hv, Std.HashMap.getElem?_insert_self]

theorem numbers_numberLiteral (a : Arena) (value : Double) :
    (a.numberLiteral value).2.numbers[value.bits]? = some (a.numberLiteral value).1 := by
  cases hv : a.numbers[value.bits]? with
  | some id => rw [numberLiteral_of_some hv, hv]
  | none => rw [numberLiteral_of_none hv, Std.HashMap.getElem?_insert_self]

theorem Interns.stringLiteral (h : a.Interns ds) (value : String)
    (hs : (a.stringLiteral value).2.types.size ≤ UInt32.size) :
    (a.stringLiteral value).2.Interns ds := by
  have hg := a.grows_stringLiteral value
  cases hv : a.strings[value]? with
  | some id => rwa [stringLiteral_of_some hv]
  | none =>
    rw [stringLiteral_of_none hv] at hs hg ⊢
    exact ⟨known_grows h.known hg, h.strings.insert h.known value hs, h.numbers.grows hg⟩

theorem Interns.numberLiteral (h : a.Interns ds) (value : Double)
    (hs : (a.numberLiteral value).2.types.size ≤ UInt32.size) :
    (a.numberLiteral value).2.Interns ds := by
  have hg := a.grows_numberLiteral value
  cases hv : a.numbers[value.bits]? with
  | some id => rwa [numberLiteral_of_some hv]
  | none =>
    rw [numberLiteral_of_none hv] at hs hg ⊢
    exact ⟨known_grows h.known hg, h.strings.grows hg, h.numbers.insert h.known value.bits hs⟩

/-! ## Runs -/

theorem Interns.put (h : a.Interns ds) (hid : (a.type? id).isSome) (entry : TypeEntry) :
    (a.put id entry).Interns (ds ++ [(id, entry)]) := by
  have recalls {K : Type} [BEq K] [Hashable K] {table : Std.HashMap K TypeId}
      {made : K → TypeEntry} (ht : a.Recalls ds table made) :
      (a.put id entry).Recalls (ds ++ [(id, entry)]) table made := by
    intro key k hk
    rw [type?_put hid, lastGiven?_append]
    split_ifs
    · rfl
    · exact ht key k hk
  refine ⟨fun d hd => ?_, recalls h.strings, recalls h.numbers⟩
  rw [type?_put hid]
  split_ifs with hk
  · rfl
  · obtain hd | hd := List.mem_append.mp hd
    · exact h.known d hd
    · rw [List.mem_singleton.mp hd] at hk
      exact absurd rfl hk

theorem size_le_apply (a : Arena) (command : Command) :
    a.types.size ≤ (a.apply command).2.types.size := by
  cases hd : a.defines command with
  | none => exact (a.grows_apply hd).size_le
  | some d =>
    have hput : (a.apply command).2.types.size = a.types.size := by
      rw [(apply_of_defines hd).2, size_put]
    exact Nat.le_of_eq hput.symm

theorem size_le_run (a : Arena) (commands : List Command) :
    a.types.size ≤ (a.run commands).types.size := by
  induction commands generalizing a with
  | nil => exact Nat.le_refl _
  | cons command commands ih => exact Nat.le_trans (a.size_le_apply command) (ih _)

/-- An arena grows to another one, and what can be looked up stays right if the other one has handles
for all types. -/
structure Carries (a b : Arena) : Prop where
  grows : a.Grows b
  interns {ds : List (TypeId × TypeEntry)} :
    b.types.size ≤ UInt32.size → a.Interns ds → b.Interns ds

theorem Carries.refl (a : Arena) : a.Carries a := ⟨.refl a, fun _ => id⟩

/-- The arena in between is no larger than the last one. -/
theorem Carries.trans (hab : a.Carries b) (hbc : b.Carries c) : a.Carries c where
  grows := hab.grows.trans hbc.grows
  interns hs h := hbc.interns hs (hab.interns (Nat.le_trans hbc.grows.size_le hs) h)

theorem carries_push (a : Arena) (entry : TypeEntry) : a.Carries (a.push entry).2 :=
  ⟨a.grows_push entry, fun _ h => h.grows (a.grows_push entry) rfl rfl⟩

theorem carries_pushSymbol (a : Arena) (entry : SymbolEntry) : a.Carries (a.pushSymbol entry).2 :=
  ⟨a.grows_pushSymbol entry, fun _ h => h.grows (a.grows_pushSymbol entry) rfl rfl⟩

theorem carries_stringLiteral (a : Arena) (value : String) :
    a.Carries (a.stringLiteral value).2 :=
  ⟨a.grows_stringLiteral value, fun hs h => h.stringLiteral value hs⟩

theorem carries_numberLiteral (a : Arena) (value : Double) :
    a.Carries (a.numberLiteral value).2 :=
  ⟨a.grows_numberLiteral value, fun hs h => h.numberLiteral value hs⟩

theorem carries_apply (a : Arena) {command : Command} (h : a.defines command = none) :
    a.Carries (a.apply command).2 :=
  apply_induction .refl .trans carries_push carries_pushSymbol carries_stringLiteral
    carries_numberLiteral a h

/-- A command keeps what can be looked up, with what it defines. -/
theorem Interns.apply {command : Command} (h : a.Interns ds)
    (hs : (a.apply command).2.types.size ≤ UInt32.size) :
    (a.apply command).2.Interns (ds ++ (a.defines command).toList) := by
  cases hd : a.defines command with
  | none =>
    rw [Option.toList_none, List.append_nil]
    exact (a.carries_apply hd).interns hs h
  | some d =>
    obtain ⟨hid, hput⟩ := apply_of_defines hd
    rw [hput]
    exact h.put hid d.2

theorem Interns.run {commands : List Command} (h : a.Interns ds)
    (hs : (a.run commands).types.size ≤ UInt32.size) :
    (a.run commands).Interns (ds ++ a.definitions commands) := by
  induction commands generalizing a ds with
  | nil =>
    rw [definitions, List.append_nil]
    exact h
  | cons command commands ih =>
    have hstep := h.apply (Nat.le_trans (size_le_run _ commands) hs)
    rw [definitions, ← List.append_assoc]
    exact ih hstep hs

/-! ## Made again -/

/-- The type of a string literal has the entry that it was given last, or that of the literal. -/
theorem type?_stringLiteral (commands : List Command) (value : String) :
    let made := (new.run commands).stringLiteral value
    made.2.types.size ≤ UInt32.size →
      made.2.type? made.1 = some ((lastGiven? (new.definitions commands) made.1).getD
        (.plain [.stringLiteral] (.string value))) := by
  intro made hs
  have hrun : (new.run commands).Interns ([] ++ new.definitions commands) :=
    interns_new.run (Nat.le_trans (grows_stringLiteral _ value).size_le hs)
  exact (hrun.stringLiteral value hs).strings value made.1 (strings_stringLiteral _ value)

/-- The type of a number literal has the entry that it was given last, or that of the literal. -/
theorem type?_numberLiteral (commands : List Command) (value : Double) :
    let made := (new.run commands).numberLiteral value
    made.2.types.size ≤ UInt32.size →
      made.2.type? made.1 = some ((lastGiven? (new.definitions commands) made.1).getD
        (.plain [.numberLiteral] (.number value))) := by
  intro made hs
  have hrun : (new.run commands).Interns ([] ++ new.definitions commands) :=
    interns_new.run (Nat.le_trans (grows_numberLiteral _ value).size_le hs)
  exact (hrun.numberLiteral value hs).numbers value.bits made.1 (numbers_numberLiteral _ value)

end Arena

end TypeGraph
