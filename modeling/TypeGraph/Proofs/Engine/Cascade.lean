import TypeGraph.Proofs.Engine.Rules
import Mathlib.Data.List.Find

/-!
# The table of rules

The rules that find what a type is, as data: `Rule.table` lists them in their order, each with the
questions that it asks (`Test`) and the kind that it gives. The kind of the layer that the rules
find is that of the first rule of the table that applies, and `unidentified` if none does
(`Engine.kind_classify`).
-/

namespace TypeGraph

universe u v

variable {H : Type u} {S : Type v}

/-- What a rule asks about a type. -/
inductive Test where
  /-- a flag is set -/
  | flag (f : TypeFlag)
  /-- the query for the value of a literal has an answer -/
  | value (k : LiteralKind)
  /-- a generic type is instantiated -/
  | reference
  /-- the generic type is a tuple -/
  | tupleTarget
  /-- there is a type argument -/
  | argument
  /-- the symbol has the name of the built-in array type -/
  | arrayName
  /-- an index query has an answer -/
  | indexed
  deriving DecidableEq, Repr

/-- What an engine answers to a test. -/
def Test.holds (e : Engine H S) (h : H) : Test → Bool
  | flag f => (e.typeFlags h).has f
  | value k => (e.value? h k).isSome
  | reference => (e.objectFlags h).has .reference
  | tupleTarget => (e.targetFlags h).has .tuple
  | argument => !(e.typeArguments h).isEmpty
  | arrayName => (e.typeSymbol h).any (e.symbolName · = arraySymbolName)
  | indexed => (e.stringIndex h).isSome || (e.numberIndex h).isSome

/-- A rule: the tests that it makes, and the kind of the types that pass all of them. -/
structure Rule where
  tests : List Test
  kind : Kind
  deriving DecidableEq, Repr

namespace Rule

/-- A rule that looks at one flag. -/
def keyword (f : TypeFlag) (a : Atom) : Rule := ⟨[.flag f], .atom a⟩

/-- The rule for literals of a kind. -/
def literal (k : LiteralKind) : Rule := ⟨[.flag k.flag, .value k], .literal k⟩

/-- The rule for types with a list of members. -/
def members (g : Group) : Rule := ⟨g.flags.map .flag, .group g⟩

/-- A rule for some of the object types. -/
def object (tests : List Test) (k : Kind) : Rule := ⟨.flag .object :: tests, k⟩

/-- The rules for object types. -/
def objects : List Rule :=
  [object [.reference, .tupleTarget, .argument] (.group .tuple),
    object [.reference, .argument, .arrayName] .array,
    object [.indexed] .objectWithIndex, object [] .object]

/-- All rules, in their order. -/
def table : List Rule :=
  [keyword .any .any, keyword .unknown .unknown, literal .string, literal .number,
    literal .boolean, members .enumLiteral, literal .bigint, keyword .string .string,
    keyword .boolean .boolean, keyword .number .number, members .enum, keyword .bigint .bigint,
    keyword .esSymbol .esSymbol, keyword .uniqueEsSymbol .uniqueEsSymbol, keyword .void .void,
    keyword .undefined .undefined, keyword .null .null, keyword .never .never,
    keyword .typeParameter .typeParameter] ++ objects ++
  [members .union, members .intersection, keyword .indexedAccess .indexedAccess,
    keyword .conditional .conditional, keyword .substitution .substitution,
    keyword .nonPrimitive .nonPrimitive]

/-- Whether a type passes all tests of a rule. -/
def applies (e : Engine H S) (h : H) (r : Rule) : Bool := r.tests.all (Test.holds e h)

end Rule

namespace Engine

variable (e : Engine H S) (h : H)

/-- The kind that the first rule of some gives that applies. -/
def firstKind (rules : List Rule) : Option Kind := (rules.find? (Rule.applies e h)).map Rule.kind

/-- The kind that the table gives. -/
def ruleKind : Kind := (e.firstKind h Rule.table).getD (.atom .unidentified)

@[simp] theorem firstKind_nil : e.firstKind h [] = none := rfl

theorem firstKind_cons (r : Rule) (rules : List Rule) :
    e.firstKind h (r :: rules) = if r.applies e h then some r.kind else e.firstKind h rules := by
  rw [firstKind, List.find?_cons]
  cases r.applies e h <;> rfl

theorem firstKind_append (as bs : List Rule) :
    e.firstKind h (as ++ bs) = (e.firstKind h as).or (e.firstKind h bs) := by
  rw [firstKind, List.find?_append, Option.map_or]
  rfl

/-! ## Parts of the table -/

theorem firstKind_keywords (rules : List (TypeFlag × Atom)) :
    e.firstKind h (rules.map fun r => .keyword r.1 r.2) =
      (firstAtom? (e.typeFlags h) rules).map .atom := by
  have ha (r : TypeFlag × Atom) :
      (Rule.keyword r.1 r.2).applies e h = (e.typeFlags h).has r.1 := Bool.and_true _
  rw [firstKind, List.find?_map, firstAtom?, Option.map_map, Option.map_map]
  simp only [Function.comp_def, ha]
  rfl

theorem firstKind_keyword (f : TypeFlag) (a : Atom) :
    e.firstKind h [.keyword f a] = if (e.typeFlags h).has f then some (.atom a) else none := by
  rw [firstKind_cons, Rule.applies, Rule.keyword, List.all_cons, List.all_nil, Bool.and_true]
  rfl

theorem firstKind_members {g : Group} {c : Bool} (hc : g.flags.all (e.typeFlags h).has = c) :
    e.firstKind h [.members g] = if c then some (.group g) else none := by
  rw [firstKind_cons, Rule.applies, Rule.members, List.all_map, ← hc]
  rfl

/-- A literal of some kind, if the type is flagged as one and its value is known. -/
def known? (k : LiteralKind) : Option Literal :=
  if (e.typeFlags h).has k.flag then e.value? h k else none

theorem kind_of_value? {k : LiteralKind} {l : Literal} (hl : e.value? h k = some l) :
    l.kind = k := by
  cases k <;> obtain ⟨x, -, rfl⟩ := Option.map_eq_some_iff.mp hl <;> rfl

theorem firstKind_literal (k : LiteralKind) :
    e.firstKind h [.literal k] = (e.known? h k).map fun l => .literal l.kind := by
  rw [firstKind_cons, Rule.applies, Rule.literal, known?]
  simp only [List.all_cons, List.all_nil, Bool.and_true, Test.holds, Bool.and_eq_true]
  by_cases hf : (e.typeFlags h).has k.flag
  · cases hv : e.value? h k with
    | none => simp
    | some l => simp [hf, e.kind_of_value? h hv]
  · simp [hf]

theorem literal?_eq :
    e.literal? h = (e.known? h .string).or ((e.known? h .number).or (e.known? h .boolean)) := rfl

theorem firstKind_literals :
    e.firstKind h [.literal .string, .literal .number, .literal .boolean] =
      (e.literal? h).map fun l => .literal l.kind := by
  show e.firstKind h
    ([Rule.literal .string] ++ ([Rule.literal .number] ++ [Rule.literal .boolean])) = _
  rw [firstKind_append, firstKind_append, firstKind_literal, firstKind_literal, firstKind_literal,
    literal?_eq, Option.map_or, Option.map_or]

theorem firstKind_bigint :
    e.firstKind h [.literal .bigint] = (e.bigint? h).map fun l => .literal l.kind :=
  e.firstKind_literal h .bigint

/-! ## Object types -/

theorem isSome_tupleSlots? :
    (e.tupleSlots? h).isSome =
      ((e.objectFlags h).has .reference && ((e.targetFlags h).has .tuple &&
        !(e.typeArguments h).isEmpty)) := by
  rw [tupleSlots?]
  cases (e.objectFlags h).has .reference <;> cases (e.targetFlags h).has .tuple <;>
    cases e.typeArguments h <;> rfl

theorem isSome_arrayElement? :
    (e.arrayElement? h).isSome =
      ((e.objectFlags h).has .reference && (!(e.typeArguments h).isEmpty &&
        (e.typeSymbol h).any (e.symbolName · = arraySymbolName))) := by
  rw [arrayElement?]
  cases (e.objectFlags h).has .reference with
  | false => rfl
  | true =>
    cases e.typeArguments h with
    | nil => rfl
    | cons k ks =>
      cases e.typeSymbol h with
      | none => rfl
      | some s => by_cases hn : e.symbolName s = arraySymbolName <;> simp [hn]

theorem isSome_signature? :
    (e.signature? h).isSome = ((e.stringIndex h).isSome || (e.numberIndex h).isSome) := by
  rw [signature?]
  cases e.stringIndex h <;> cases e.numberIndex h <;> rfl

theorem kind_objectShape :
    (e.objectShape h).kind =
      if (e.tupleSlots? h).isSome then .group .tuple
      else if (e.arrayElement? h).isSome then .array
      else if (e.signature? h).isSome then .objectWithIndex
      else .object := by
  rw [objectShape]
  cases e.tupleSlots? h with
  | some slots => rfl
  | none =>
    cases e.arrayElement? h with
    | some element => rfl
    | none => cases e.signature? h <;> rfl

theorem firstKind_objects :
    e.firstKind h Rule.objects =
      if (e.typeFlags h).has .object then some (e.objectShape h).kind else none := by
  rw [kind_objectShape, isSome_tupleSlots?, isSome_arrayElement?, isSome_signature?]
  simp only [Rule.objects, firstKind_cons, firstKind_nil, Rule.applies, Rule.object, List.all_cons,
    List.all_nil, Bool.and_true, Test.holds]
  cases (e.typeFlags h).has .object with
  | false => rfl
  | true => simp only [Bool.true_and, if_true, apply_ite some]

/-! ## The table -/

/-- The table is made of the parts that the rules are grouped in. -/
theorem table_eq :
    Rule.table =
      [Rule.keyword .any .any] ++ ([Rule.keyword .unknown .unknown] ++
      ([Rule.literal .string, Rule.literal .number, Rule.literal .boolean] ++
      ([Rule.members .enumLiteral] ++ ([Rule.literal .bigint] ++
      (coreKeywords.map (fun r => Rule.keyword r.1 r.2) ++ ([Rule.members .enum] ++
      (keywords.map (fun r => Rule.keyword r.1 r.2) ++ (Rule.objects ++
      ([Rule.members .union] ++ ([Rule.members .intersection] ++
      markers.map (fun r => Rule.keyword r.1 r.2))))))))))) := rfl

/-- Where a condition is tested before the other rules, so is its part of the table. -/
theorem kind_ite {c : Prop} [Decidable c] {s s' : Shape H} {k : Kind} {part rules : List Rule}
    (hp : e.firstKind h part = if c then some k else none) (hs : s.kind = k)
    (hs' : s'.kind = (e.firstKind h rules).getD (.atom .unidentified)) :
    (if c then s else s').kind = (e.firstKind h (part ++ rules)).getD (.atom .unidentified) := by
  rw [firstKind_append, hp]
  split
  · exact hs
  · exact hs'

/-- The same for a query that is asked before the other rules. -/
theorem kind_option {α : Type} {o : Option α} {k : α → Kind} {s : Shape H}
    {part rules : List Rule} (hp : e.firstKind h part = o.map k)
    (hsome : ∀ a, o = some a → s.kind = k a)
    (hnone : o = none → s.kind = (e.firstKind h rules).getD (.atom .unidentified)) :
    s.kind = (e.firstKind h (part ++ rules)).getD (.atom .unidentified) := by
  rw [firstKind_append, hp]
  cases o with
  | none => exact hnone rfl
  | some a => exact hsome a rfl

/-- The rules give a layer of the kind that the table tells. -/
theorem kind_classify : (e.classify h).kind = e.ruleKind h := by
  have two (f g : TypeFlag) : [f, g].all (e.typeFlags h).has =
      ((e.typeFlags h).has f && (e.typeFlags h).has g) := congrArg (_ && ·) (Bool.and_true _)
  have one (f : TypeFlag) : [f].all (e.typeFlags h).has = (e.typeFlags h).has f := Bool.and_true _
  rw [ruleKind, table_eq]
  unfold classify
  dsimp only
  refine e.kind_ite h (e.firstKind_keyword ..) rfl ?_
  refine e.kind_ite h (e.firstKind_keyword ..) rfl ?_
  refine e.kind_option h (e.firstKind_literals h) (fun l hl => by rw [hl]; rfl) fun hl => ?_
  rw [hl]
  refine e.kind_ite h (e.firstKind_members h (two _ _)) rfl ?_
  refine e.kind_option h (e.firstKind_bigint h) (fun l hl => by rw [hl]; rfl) fun hl => ?_
  rw [hl]
  refine e.kind_option h (e.firstKind_keywords h _) (fun a ha => by rw [ha]; rfl) fun ha => ?_
  rw [ha]
  refine e.kind_ite h (e.firstKind_members h (two _ _)) rfl ?_
  refine e.kind_option h (e.firstKind_keywords h _) (fun a ha => by rw [ha]; rfl) fun ha => ?_
  rw [ha]
  refine e.kind_ite h (e.firstKind_objects h) rfl ?_
  refine e.kind_ite h (e.firstKind_members h (one _)) rfl ?_
  refine e.kind_ite h (e.firstKind_members h (one _)) rfl ?_
  rw [firstKind_keywords]
  cases firstAtom? (e.typeFlags h) markers <;> rfl

/-! ## The first rule -/

/-- A rule that applies decides if none before it does. -/
theorem ruleKind_of_first {i : ℕ} {r : Rule} (hi : Rule.table[i]? = some r)
    (hr : r.applies e h = true) (hn : ∀ r' ∈ Rule.table.take i, r'.applies e h = false) :
    e.ruleKind h = r.kind := by
  obtain ⟨hlt, rfl⟩ := List.getElem?_eq_some_iff.mp hi
  have hsplit : Rule.table = Rule.table.take i ++ Rule.table[i] :: Rule.table.drop (i + 1) := by
    rw [← List.drop_eq_getElem_cons, List.take_append_drop]
  have hfirst : Rule.table.find? (Rule.applies e h) = some Rule.table[i] := by
    refine List.find?_eq_some_iff_append.mpr ⟨hr, _, _, hsplit, fun r' hr' => ?_⟩
    rw [hn r' hr']
    rfl
  rw [ruleKind, firstKind, hfirst]
  rfl

theorem ruleKind_eq_unidentified_iff :
    e.ruleKind h = .atom .unidentified ↔ ∀ r ∈ Rule.table, r.applies e h = false := by
  have hkind : ∀ r ∈ Rule.table, r.kind ≠ .atom .unidentified := by decide
  rw [ruleKind, firstKind]
  cases hr : Rule.table.find? (Rule.applies e h) with
  | none => simpa using hr
  | some r =>
    have hmem := List.mem_of_find?_eq_some hr
    refine iff_of_false (hkind r hmem) fun hn => ?_
    exact absurd (List.find?_some hr) (Bool.eq_false_iff.mp (hn r hmem))

variable {e h} {e' : Engine H S} {h' : H}

theorem applies_congr {r : Rule} (ht : ∀ t ∈ r.tests, t.holds e' h' = t.holds e h) :
    r.applies e' h' = r.applies e h := by
  rw [Rule.applies, Rule.applies, Bool.eq_iff_iff, List.all_eq_true, List.all_eq_true]
  exact forall₂_congr fun t hm => by rw [ht t hm]

/-- If one of the first rules applies, what they ask decides. -/
theorem ruleKind_congr {n : ℕ} (hn : ∃ r ∈ Rule.table.take n, r.applies e h = true)
    (ht : ∀ r ∈ Rule.table.take n, ∀ t ∈ r.tests, t.holds e' h' = t.holds e h) :
    e'.ruleKind h' = e.ruleKind h := by
  obtain ⟨r, hr⟩ := Option.isSome_iff_exists.mp (List.find?_isSome.mpr hn)
  have hr' : (Rule.table.take n).find? (Rule.applies e' h') = some r :=
    (List.find?_congr fun r hr => applies_congr (ht r hr)).trans hr
  -- the rules after the first ones are not looked at
  have first {e : Engine H S} {h : H} (hr : (Rule.table.take n).find? (Rule.applies e h) = some r) :
      e.ruleKind h = r.kind := by
    rw [ruleKind, ← List.take_append_drop n Rule.table, firstKind_append, firstKind, hr]
    rfl
  rw [first hr, first hr']

end Engine

end TypeGraph
