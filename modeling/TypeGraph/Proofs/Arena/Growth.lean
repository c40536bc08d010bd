import TypeGraph.Proofs.Arena.Definition
import TypeGraph.Proofs.Shape
import Std.Data.HashMap.Lemmas

/-!
# Arenas that only grow

No command but `define` changes a type or a symbol that is there. `Arena.Grows a b` says so of two
arenas, and that the literals which are looked up stay the ones that were made
(`Arena.Interned`). Every builder makes an arena grow, and so do the commands that define nothing
(`Arena.grows_apply`, `Arena.grows_run`).

Types and symbols are found here by their numbers, of which there is no end, while their handles
are words.
-/

namespace TypeGraph

/-- The handle of the type with a number. -/
def TypeId.ofNumber (n : ℕ) : TypeId := ⟨.ofNat n⟩

/-- The handle of the symbol with a number. -/
def SymbolId.ofNumber (n : ℕ) : SymbolId := ⟨.ofNat n⟩

namespace Arena

variable {a b c : Arena}

/-- A handle was given for a type with some entry. -/
def Made (a : Arena) (id : TypeId) (entry : TypeEntry) : Prop :=
  ∃ n, id = .ofNumber n ∧ a.types[n]? = some entry

/-- What a table finds for a key was made with an entry that depends on the key. -/
def Finds {K : Type} [BEq K] [Hashable K] (a : Arena) (table : Std.HashMap K TypeId)
    (entry : K → TypeEntry) : Prop :=
  ∀ key id, table[key]? = some id → a.Made id (entry key)

/-- The literals that are looked up were made with the values they are looked up by. -/
structure Interned (a : Arena) : Prop where
  strings : a.Finds a.strings fun value => .plain [.stringLiteral] (.string value)
  numbers : a.Finds a.numbers fun bits => .plain [.numberLiteral] (.number ⟨bits⟩)

/-- An arena has the types and symbols of another one, under their numbers. -/
structure Grows (a b : Arena) : Prop where
  types {n : ℕ} {entry : TypeEntry} : a.types[n]? = some entry → b.types[n]? = some entry
  symbols {n : ℕ} {entry : SymbolEntry} : a.symbols[n]? = some entry → b.symbols[n]? = some entry
  interned : a.Interned → b.Interned

theorem Grows.refl (a : Arena) : a.Grows a := ⟨id, id, id⟩

theorem Grows.trans (hab : a.Grows b) (hbc : b.Grows c) : a.Grows c :=
  ⟨hbc.types ∘ hab.types, hbc.symbols ∘ hab.symbols, hbc.interned ∘ hab.interned⟩

theorem Grows.size_le (h : a.Grows b) : a.types.size ≤ b.types.size := by
  refine Nat.le_of_not_lt fun hlt => ?_
  have hb := h.types (Array.getElem?_eq_getElem hlt)
  rw [Array.getElem?_eq_none (Nat.le_refl _)] at hb
  cases hb

/-! ## Builders -/

theorem getElem?_push_of_some {α : Type} {as : Array α} {n : ℕ} {x y : α} (h : as[n]? = some x) :
    (as.push y)[n]? = some x := by
  obtain ⟨hn, rfl⟩ := Array.getElem?_eq_some_iff.mp h
  exact Array.getElem?_push_lt hn

theorem types_push (a : Arena) (entry : TypeEntry) :
    (a.push entry).2.types[a.types.size]? = some entry := Array.getElem?_push_size

theorem made_push (a : Arena) (entry : TypeEntry) :
    (a.push entry).2.Made (a.push entry).1 entry := ⟨_, rfl, a.types_push entry⟩

section

variable {K : Type} [BEq K] [Hashable K] {table : Std.HashMap K TypeId} {entry : K → TypeEntry}

theorem Finds.push (h : a.Finds table entry) (entry' : TypeEntry) :
    (a.push entry').2.Finds table entry := by
  intro key id hk
  obtain ⟨n, rfl, hn⟩ := h key id hk
  exact ⟨n, rfl, getElem?_push_of_some hn⟩

/-- A type that was made may be put into the table. -/
theorem Finds.insert [LawfulBEq K] [LawfulHashable K] (h : a.Finds table entry) (key : K) :
    (a.push (entry key)).2.Finds (table.insert key (a.push (entry key)).1) entry := by
  intro key' id hk
  rw [Std.HashMap.getElem?_insert] at hk
  split at hk
  next he =>
    obtain rfl : key = key' := eq_of_beq he
    obtain rfl := Option.some.inj hk
    exact a.made_push _
  next => exact h.push _ key' id hk

end

theorem grows_push (a : Arena) (entry : TypeEntry) : a.Grows (a.push entry).2 where
  types := getElem?_push_of_some
  symbols := id
  interned h := ⟨h.strings.push _, h.numbers.push _⟩

theorem symbols_pushSymbol (a : Arena) (entry : SymbolEntry) :
    (a.pushSymbol entry).2.symbols[a.symbols.size]? = some entry := Array.getElem?_push_size

theorem grows_pushSymbol (a : Arena) (entry : SymbolEntry) : a.Grows (a.pushSymbol entry).2 where
  types := id
  symbols := getElem?_push_of_some
  interned h := ⟨h.strings, h.numbers⟩

theorem grows_stringLiteral (a : Arena) (value : String) : a.Grows (a.stringLiteral value).2 := by
  unfold stringLiteral
  split
  · exact .refl a
  · exact ⟨getElem?_push_of_some, id, fun h => ⟨h.strings.insert value, h.numbers.push _⟩⟩

theorem made_stringLiteral (h : a.Interned) (value : String) :
    (a.stringLiteral value).2.Made (a.stringLiteral value).1
      (.plain [.stringLiteral] (.string value)) := by
  unfold stringLiteral
  split
  next id hv => exact h.strings value id hv
  next => exact a.made_push _

theorem grows_numberLiteral (a : Arena) (value : Double) : a.Grows (a.numberLiteral value).2 := by
  unfold numberLiteral
  split
  · exact .refl a
  · exact ⟨getElem?_push_of_some, id, fun h => ⟨h.strings.push _, h.numbers.insert value.bits⟩⟩

theorem made_numberLiteral (h : a.Interned) (value : Double) :
    (a.numberLiteral value).2.Made (a.numberLiteral value).1
      (.plain [.numberLiteral] (.number value)) := by
  unfold numberLiteral
  split
  next id hv => exact h.numbers value.bits id hv
  next => exact a.made_push _

/-! ## Commands -/

/-- A command that defines nothing is made of additions: what holds between the arenas before and
after each kind of them holds between those before and after the command. -/
theorem apply_induction {R : Arena → Arena → Prop} (refl : ∀ a, R a a)
    (trans : ∀ {a b c}, R a b → R b c → R a c) (push : ∀ a entry, R a (a.push entry).2)
    (pushSymbol : ∀ a entry, R a (a.pushSymbol entry).2)
    (string : ∀ a value, R a (a.stringLiteral value).2)
    (number : ∀ a value, R a (a.numberLiteral value).2) (a : Arena) {command : Command}
    (h : a.defines command = none) : R a (a.apply command).2 := by
  have wrap (a : Arena) (type : TypeId) (how : Wrapping) : R a (a.wrap type how).2 := by
    cases how with
    | property => exact trans (pushSymbol a _) (push _ _)
    | _ => exact push a _
  have wrapAll (how : Wrapping) (count : ℕ) (a : Arena) (type : TypeId) :
      R a (a.wrapAll how type count).2 := by
    induction count generalizing a type with
    | zero => exact refl a
    | succ count ih => exact trans (wrap a type how) (ih _ _)
  have numbered (count : ℕ) : R a (a.numbered count).2 :=
    mapAccum_inv (I := R a) (fun _ _ b hb => trans hb (string b _)) (refl a)
  cases command with
  | define id shapeOf =>
    rw [apply_define_of_none h]
    exact refl a
  | stringLiteral value => exact string a value
  | numberLiteral value => exact number a value
  | booleanLiteral value => exact refl a
  | property | optionalProperty | unresolvedProperty => exact pushSymbol a _
  | reference => exact trans (pushSymbol a _) (push _ _)
  | nest how type count => exact wrapAll how count a type
  | wide count => exact trans (numbered count) (push _ _)
  | _ => exact push a _

/-- A command that defines nothing changes nothing that is there. -/
theorem grows_apply (a : Arena) {command : Command} (h : a.defines command = none) :
    a.Grows (a.apply command).2 :=
  apply_induction .refl .trans grows_push grows_pushSymbol grows_stringLiteral grows_numberLiteral
    a h

/-- Commands one after the other change nothing either if none is a `define`. -/
theorem grows_run (a : Arena) {commands : List Command}
    (h : ∀ id shapeOf, .define id shapeOf ∉ commands) : a.Grows (a.run commands) := by
  induction commands generalizing a with
  | nil => exact .refl a
  | cons command commands ih =>
    refine (a.grows_apply (a.defines_eq_none fun id shapeOf he => h id shapeOf ?_)).trans
      (ih _ fun id shapeOf hm => h id shapeOf (List.mem_cons_of_mem _ hm))
    exact he ▸ List.mem_cons_self ..

theorem interned_new : new.Interned := by
  constructor <;> intro key id hk <;> simp [new] at hk

end Arena

end TypeGraph
