import TypeGraph.Proofs.Arena.Growth
import TypeGraph.Proofs.Engine.Rules
import Mathlib.Data.List.Forall2

/-!
# The layers of made types

`Arena.Shows a entry t` says what the entry of a type with the layer `t` looks like. It stays so as
the arena grows (`Arena.Shows.grows`), and the rules find that layer as long as the numbers of types
and symbols fit into their handles (`Arena.Shows.classify`).
-/

namespace TypeGraph

/-- Every type and every symbol of an arena has a handle of its own. -/
def Arena.Numbered (a : Arena) : Prop :=
  a.types.size ≤ UInt32.size ∧ a.symbols.size ≤ UInt32.size

namespace Arena

variable {a b : Arena}

/-- The structure of the type of a literal. -/
def Form.ofLiteral : Literal → Form
  | .string value => .string value
  | .number value => .number value
  | .boolean value => .boolean value
  | .bigint value => .bigint value

/-- The entry of an object type. -/
def TypeEntry.object (symbols : List SymbolId) (string number : Option TypeId) : TypeEntry :=
  ⟨.of [.object], .of [.anonymous], .object symbols string number⟩

/-- The entry of an instantiation of a generic type. -/
def TypeEntry.reference (symbol : Option SymbolId) (target : ObjectFlag)
    (arguments : List TypeId) : TypeEntry :=
  ⟨.of [.object], .of [.reference], .reference symbol (.of [target]) arguments⟩

/-- The flags of the symbol of a property. -/
def propertyFlags (optional : Bool) : SymbolFlags :=
  .of (if optional then [.property, .optional] else [.property])

/-- A handle was given for the symbol of a property. -/
def Declares (a : Arena) (s : SymbolId) (p : Property TypeId) : Prop :=
  ∃ n, s = .ofNumber n ∧ a.symbols[n]? = some ⟨p.name, propertyFlags p.optional, some p.value⟩

/-- Two answers about index signatures stand for a signature. -/
def Signs (s : Signature TypeId) (string number : Option TypeId) : Prop :=
  match s.key with
  | .string => string = some s.value ∧ number = none
  | .number => string = none ∧ number = some s.value
  | .stringOrNumber => string = some s.value ∧ number.isSome

/-- The entry of a type with some layer. -/
def Shows (a : Arena) (entry : TypeEntry) : Shape TypeId → Prop
  | .atom x => x ≠ .recursive ∧ entry.flags = .of x.flags
  | .literal l => entry = .plain [l.kind.flag] (.ofLiteral l)
  | .group .tuple slots => slots ≠ [] ∧ entry = .reference none .tuple slots
  | .group g members => entry = .plain g.flags (.members members)
  | .array element => entry = .reference (some arraySymbol) .interface [element]
  | .index _ => False
  | .object ps => ∃ symbols, entry = .object symbols none none ∧ symbols.Forall₂ a.Declares ps
  | .objectWithIndex ps s => ∃ symbols string number,
    entry = .object symbols string number ∧ symbols.Forall₂ a.Declares ps ∧ Signs s string number

theorem Shows.grows {entry : TypeEntry} {t : Shape TypeId} (h : a.Shows entry t)
    (hg : a.Grows b) : b.Shows entry t := by
  have declares {symbols : List SymbolId} {ps : List (Property TypeId)}
      (hp : symbols.Forall₂ a.Declares ps) : symbols.Forall₂ b.Declares ps :=
    hp.imp fun _ _ ⟨n, hs, hn⟩ => ⟨n, hs, hg.symbols hn⟩
  cases t with
  | object ps =>
    obtain ⟨symbols, he, hp⟩ := h
    exact ⟨symbols, he, declares hp⟩
  | objectWithIndex ps s =>
    obtain ⟨symbols, string, number, he, hp, hs⟩ := h
    exact ⟨symbols, string, number, he, declares hp, hs⟩
  | group g members => cases g <;> exact h
  | _ => exact h

/-! ## What the engine answers -/

theorem type?_ofNumber (ha : a.Numbered) {n : ℕ} {entry : TypeEntry}
    (h : a.types[n]? = some entry) : a.type? (.ofNumber n) = some entry := by
  obtain ⟨hn, -⟩ := Array.getElem?_eq_some_iff.mp h
  rw [type?, TypeId.ofNumber, UInt32.toNat_ofNat_of_lt' (Nat.lt_of_lt_of_le hn ha.1), h]

theorem symbol?_ofNumber (ha : a.Numbered) {n : ℕ} {entry : SymbolEntry}
    (h : a.symbols[n]? = some entry) : a.symbol? (.ofNumber n) = some entry := by
  obtain ⟨hn, -⟩ := Array.getElem?_eq_some_iff.mp h
  rw [symbol?, SymbolId.ofNumber, UInt32.toNat_ofNat_of_lt' (Nat.lt_of_lt_of_le hn ha.2), h]

variable {id : TypeId} {entry : TypeEntry}

theorem typeFlags_engine (h : a.type? id = some entry) :
    a.engine.typeFlags id = entry.flags := by
  dsimp only [engine]
  rw [h, Option.map_some, Option.getD_some]

theorem objectFlags_engine (h : a.type? id = some entry) :
    a.engine.objectFlags id = entry.objectFlags := by
  dsimp only [engine]
  rw [h, Option.map_some, Option.getD_some]

theorem form?_eq (h : a.type? id = some entry) : a.form? id = some entry.form := by
  rw [form?, h, Option.map_some]

theorem symbolName_engine {s : SymbolId} {symbol : SymbolEntry} (h : a.symbol? s = some symbol) :
    a.engine.symbolName s = symbol.name := by
  dsimp only [engine]
  rw [h, Option.map_some, Option.getD_some]

theorem memberTypes_engine {members : List TypeId} (h : a.form? id = some (.members members)) :
    a.engine.memberTypes id = members := by
  dsimp only [engine]
  rw [h]

theorem value?_engine {l : Literal} (h : a.form? id = some (.ofLiteral l)) :
    a.engine.value? id l.kind = some l := by
  cases l <;>
  · dsimp only [Engine.value?, Literal.kind, engine]
    rw [h]
    rfl

/-- The answers about an object type. -/
theorem queries_object {symbols : List SymbolId} {string number : Option TypeId}
    (h : a.type? id = some (.object symbols string number)) :
    a.engine.typeFlags id = .of [.object] ∧ a.engine.objectFlags id = .of [.anonymous] ∧
      a.engine.properties id = symbols ∧ a.engine.stringIndex id = string ∧
        a.engine.numberIndex id = number := by
  refine ⟨typeFlags_engine h, objectFlags_engine h, ?_⟩
  dsimp only [engine]
  rw [form?_eq h]
  exact ⟨rfl, rfl, rfl⟩

/-- The answers about an instantiation of a generic type. -/
theorem queries_reference {symbol : Option SymbolId} {target : ObjectFlag} {arguments : List TypeId}
    (h : a.type? id = some (.reference symbol target arguments)) :
    a.engine.typeFlags id = .of [.object] ∧ a.engine.objectFlags id = .of [.reference] ∧
      a.engine.targetFlags id = .of [target] ∧ a.engine.typeArguments id = arguments ∧
        a.engine.typeSymbol id = symbol := by
  refine ⟨typeFlags_engine h, objectFlags_engine h, ?_⟩
  dsimp only [engine]
  rw [form?_eq h]
  exact ⟨rfl, rfl, rfl⟩

theorem Declares.property_eq (ha : a.Numbered) {s : SymbolId} {p : Property TypeId}
    (h : a.Declares s p) : a.engine.property s = p := by
  obtain ⟨n, rfl, hn⟩ := h
  obtain ⟨name, optional, value⟩ := p
  dsimp only [Engine.property, engine]
  rw [symbol?_ofNumber ha hn]
  cases optional <;> simp [propertyFlags]

theorem properties_eq (ha : a.Numbered) {symbols : List SymbolId} {ps : List (Property TypeId)}
    (h : symbols.Forall₂ a.Declares ps) : symbols.map a.engine.property = ps := by
  induction h with
  | nil => rfl
  | cons hs _ ih => rw [List.map_cons, hs.property_eq ha, ih]

/-- Which of the two index queries answer tells the key type. -/
theorem signature?_of_signs {s : Signature TypeId}
    (hs : Signs s (a.engine.stringIndex id) (a.engine.numberIndex id)) :
    a.engine.signature? id = some s := by
  obtain ⟨key, value⟩ := s
  rw [Engine.signature?]
  cases key with
  | string =>
    obtain ⟨hs, hn⟩ := hs
    rw [hs, hn]
  | number =>
    obtain ⟨hs, hn⟩ := hs
    rw [hs, hn]
  | stringOrNumber =>
    obtain ⟨hs, hn⟩ := hs
    obtain ⟨k, hk⟩ := Option.isSome_iff_exists.mp hn
    rw [hs, hk]

/-- The rules find the layer that an entry shows. -/
theorem Shows.classify {n : ℕ} {entry : TypeEntry} {t : Shape TypeId} (h : a.Shows entry t)
    (hn : new.Grows a) (ha : a.Numbered) (he : a.types[n]? = some entry) :
    a.engine.classify (.ofNumber n) = t := by
  have ht := type?_ofNumber ha he
  cases t with
  | atom x =>
    obtain ⟨hx, hf⟩ := h
    exact Engine.classify_atom hx ((typeFlags_engine ht).trans hf)
  | literal l =>
    obtain rfl := h
    exact Engine.classify_literal (typeFlags_engine ht) (value?_engine (form?_eq ht))
  | group g members =>
    by_cases hg : g = .tuple
    · obtain rfl := hg
      obtain ⟨hs, rfl⟩ := h
      obtain ⟨hf, ho, htarget, harg, -⟩ := queries_reference ht
      rw [Engine.classify_object hf, Engine.objectShape_tuple ho htarget (harg ▸ hs), harg]
    · obtain rfl : entry = .plain g.flags (.members members) := by
        cases g with
        | tuple => exact absurd rfl hg
        | _ => exact h
      rw [Engine.classify_members hg (typeFlags_engine ht), memberTypes_engine (form?_eq ht)]
  | array element =>
    obtain rfl := h
    have hs : a.symbol? arraySymbol = some ⟨arraySymbolName, .empty, none⟩ :=
      symbol?_ofNumber ha (hn.symbols (n := 0) rfl)
    obtain ⟨hf, ho, htarget, harg, hsymbol⟩ := queries_reference ht
    rw [Engine.classify_object hf,
      Engine.objectShape_array ho htarget harg hsymbol (symbolName_engine hs)]
  | index s => exact h.elim
  | object ps =>
    obtain ⟨symbols, rfl, hp⟩ := h
    obtain ⟨hf, ho, hprops, hstring, hnumber⟩ := queries_object ht
    have hs : a.engine.signature? (.ofNumber n) = none := by
      rw [Engine.signature?, hstring, hnumber]
    rw [Engine.classify_object hf, Engine.objectShape_object ho hs, hprops, properties_eq ha hp]
  | objectWithIndex ps s =>
    obtain ⟨symbols, string, number, rfl, hp, hs⟩ := h
    obtain ⟨hf, ho, hprops, rfl, rfl⟩ := queries_object ht
    rw [Engine.classify_object hf,
      Engine.objectShape_objectWithIndex ho (signature?_of_signs hs), hprops, properties_eq ha hp]

end Arena

end TypeGraph
