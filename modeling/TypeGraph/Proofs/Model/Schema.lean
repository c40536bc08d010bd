import TypeGraph.Proofs.Json.Fields
import TypeGraph.Proofs.Model.Reading

/-!
# The schema of models

`Model.Fits` says which models the members of an object describe, layer by layer and without a
reader: there is one `kind`, given by its word or its number, and each field of its payload is there
once and of the right form; other members do not matter. A document that does not nest too deep is
read as just the models it describes (`Model.reads_ofMembers`).
-/

namespace TypeGraph

open View

universe u

/-! ## Kinds -/

/-- A value that gives a kind, by its word or by its number. -/
def Kind.Fits (k : Kind) : Json → Prop
  | .scalar (.string word) => word = k.name
  | .scalar (.number (.integer i)) => 0 ≤ i ∧ Kind.wireOrder[i.toNat]? = some k
  | _ => False

/-- Just one member gives the kind. -/
def HasKind (k : Kind) (ms : Members) : Prop := OneField "kind" k.Fits ms

namespace Kind

theorem ofName?_eq_some_iff {word : String} {k : Kind} : ofName? word = some k ↔ word = k.name := by
  constructor
  · intro h
    rw [ofName?] at h
    simpa [eq_comm] using List.find?_some h
  · rintro rfl
    exact ofName?_name k

theorem reads_ofJson (j : Json) : Reads (ofJson j) fun k => k.Fits j := by
  cases j with
  | array js => exact .refuse _ fun k => id
  | object ms => exact .refuse _ fun k => id
  | scalar s =>
    cases s with
    | null => exact .refuse _ fun k => id
    | boolean b => exact .refuse _ fun k => id
    | string word =>
      rw [ofJson, read]
      cases h : ofName? word with
      | none =>
        refine .refuse _ fun k hk => ?_
        rw [ofName?_eq_some_iff.mpr hk] at h
        cases h
      | some k =>
        refine (Reads.ok k).congr fun l => ?_
        rw [Fits, ← ofName?_eq_some_iff, h, Option.some.injEq]
        exact eq_comm
    | number n =>
      cases n with
      | float d => exact .refuse _ fun k => id
      | integer i =>
        rw [ofJson]
        split
        next hneg => exact .refuse _ fun k hk => absurd hk.1 (Int.not_le.mpr hneg)
        next hpos =>
          cases h : wireOrder[i.toNat]? with
          | none =>
            refine .refuse _ fun k hk => ?_
            rw [hk.2] at h
            cases h
          | some k =>
            refine (Reads.ok k).congr fun l => ?_
            rw [Fits, h, Option.some.injEq, and_iff_right (Int.not_lt.mp hpos)]
            exact eq_comm

theorem reads_ofMembers (ms : Members) : Reads (ofMembers ms) fun k => HasKind k ms :=
  reads_readField fun j _ => reads_ofJson j

end Kind

/-! ## Values and fields -/

/-- A bigint literal: its sign and its digits. -/
def BigIntLiteral.Fits (b : BigIntLiteral) : Json → Prop :=
  IsRecord "negative" "base10Value" (· = .boolean b.negative) (· = .string b.digits)

/-- The value of a literal. -/
def Literal.Fits : Literal → Json → Prop
  | string s, j => j = .string s
  | number d, j => d.Fits j
  | boolean b, j => j = .boolean b
  | bigint b, j => b.Fits j

/-- An object whose members are as demanded. -/
def IsObject (p : Members → Prop) : Json → Prop
  | .object ms => p ms
  | _ => False

/-- The members of the model of a key type: `string`, `number`, or a union of these two in either
order. -/
def KeyType.Fits : KeyType → Members → Prop
  | string, ms => HasKind (.atom .string) ms
  | number, ms => HasKind (.atom .number) ms
  | stringOrNumber, ms => HasKind (.group .union) ms ∧ OneField "types" (fun j =>
      IsArrayOf [IsObject (HasKind (.atom .string)), IsObject (HasKind (.atom .number))] j ∨
        IsArrayOf [IsObject (HasKind (.atom .number)), IsObject (HasKind (.atom .string))] j) ms

/-- An index signature: the models of its keys and of its values. -/
def Signature.Fits (s : Signature (Members → Prop)) : Json → Prop :=
  IsRecord "keyType" "valueType" (IsObject s.key.Fits) (IsObject s.value)

/-- A property: a name, a flag, and all other members for its value. -/
def Property.Fits (p : Property (Members → Prop)) : Json → Prop :=
  IsObject fun ms => OneField "name" (· = .string p.name) ms ∧
    OneField "optional" (· = .boolean p.optional) ms ∧ p.value (otherFields "name" "optional" ms)

/-! ## Layers -/

/-- What a layer holds besides its kind. -/
def Shape.PayloadFits : Shape (Members → Prop) → Members → Prop
  | atom _, _ => True
  | literal l, ms => OneField "value" l.Fits ms
  | group g ps, ms => OneField g.field (IsArrayOf (ps.map IsObject)) ms
  | array p, ms => OneField "type" (IsObject p) ms
  | index s, ms =>
    OneField "keyType" (IsObject s.key.Fits) ms ∧ OneField "valueType" (IsObject s.value) ms
  | object ps, ms => OneField "props" (IsArrayOf (ps.map Property.Fits)) ms
  | objectWithIndex ps s, ms =>
    OneField "props" (IsArrayOf (ps.map Property.Fits)) ms ∧ OneField "index" s.Fits ms

/-- The members of the object for a layer. -/
def Shape.Fits (s : Shape (Members → Prop)) (ms : Members) : Prop :=
  HasKind s.kind ms ∧ s.PayloadFits ms

/-- The members of an object describe a model; it carries no origin. -/
def Model.Fits {H : Type u} : Model H → Members → Prop :=
  fold fun m s ms => m.origin = none ∧ s.Fits ms

theorem Model.fits_iff {H : Type u} (m : Model H) (ms : Members) :
    m.Fits ms ↔ m.origin = none ∧ (m.shape.map Fits).Fits ms := by
  rw [Fits, fold_eq]

/-! ## Reading by the schema -/

theorem BigIntLiteral.reads_read (j : Json) :
    Reads (BigIntLiteral.read Json.view j) fun b => b.Fits j := by
  have h := (reads_record .bigint (j := j) (by decide : "base10Value" ≠ "negative")
    (fun i _ => reads_truth i) fun i _ => reads_text i).map fun x => (⟨x.1, x.2⟩ : BigIntLiteral)
  refine h.congr fun b => ?_
  constructor
  · rintro ⟨x, hx, rfl⟩
    exact hx
  · exact fun hb => ⟨(b.negative, b.digits), hb, rfl⟩

theorem Literal.reads_read (k : LiteralKind) (j : Json) :
    Reads (Literal.read k j) fun l => l.kind = k ∧ l.Fits j := by
  cases k with
  | string =>
    refine ((reads_text j).map Literal.string).congr fun l => ?_
    cases l <;> simp [Literal.kind, Literal.Fits]
  | number =>
    refine ((reads_double j).map Literal.number).congr fun l => ?_
    cases l <;> simp [Literal.kind, Literal.Fits]
  | boolean =>
    refine ((reads_truth j).map Literal.boolean).congr fun l => ?_
    cases l <;> simp [Literal.kind, Literal.Fits]
  | bigint =>
    refine ((BigIntLiteral.reads_read j).map Literal.bigint).congr fun l => ?_
    cases l <;> simp [Literal.kind, Literal.Fits]

section

variable {α : Type} {P : α → Members → Prop} {Q : KeyType → Members → Prop}
  {readKey : Members → Except Problem KeyType} {read : Members → Except Problem α} {n : Nat}

theorem reads_readObject
    (hread : ∀ ms, (Json.object ms).depth ≤ n → Reads (read ms) fun a => P a ms) {j : Json}
    (hj : j.depth ≤ n) : Reads (readObject read j) fun a => IsObject (P a) j := by
  cases j with
  | object ms => exact hread ms hj
  | _ => exact .refuse _ fun a => id

/-- Members may be left out. -/
theorem depth_otherFields_le {ms : Members} (h : (Json.object ms).depth ≤ n)
    (first second : String) : (Json.object (otherFields first second ms)).depth ≤ n := by
  cases n with
  | zero => exact absurd h (Nat.not_succ_le_zero _)
  | succ n =>
    rw [Json.depth_object_le_iff] at h ⊢
    exact fun m hm => h m (List.mem_of_mem_filter hm)

theorem Property.reads_read
    (hread : ∀ ms, (Json.object ms).depth ≤ n → Reads (read ms) fun a => P a ms)
    {j : Json} (hj : j.depth ≤ n) :
    Reads (Property.read Json.view read j) fun p => (p.map P).Fits j := by
  cases j with
  | scalar s => exact .refuse _ fun p => id
  | array js => exact .refuse _ fun p => id
  | object ms =>
    have hne : "optional" ≠ "name" := by decide
    have h := (reads_readFields Prod.mk hne none none (fun i (_ : i ∈ fieldValues "name" ms) =>
        reads_text i) fun i _ => reads_truth i).bind
          (R := fun x (p : Property α) => ∃ a, P a x.2.2 ∧ p = ⟨x.1, x.2.1, a⟩) fun x hx => by
            have hrest : x.2.2 = otherFields "name" "optional" ms :=
              hx.others.trans (List.map_id _)
            exact (hread x.2.2 (hrest ▸ depth_otherFields_le hj _ _)).map _
    refine h.congr fun p => ?_
    constructor
    · rintro ⟨⟨name, optional, rest⟩, ⟨hname, hoptional, hrest⟩, a, ha, rfl⟩
      obtain rfl : rest = otherFields "name" "optional" ms := hrest.trans (List.map_id _)
      exact ⟨hname, hoptional, ha⟩
    · rintro ⟨hname, hoptional, hvalue⟩
      exact ⟨(p.name, p.optional, _), ⟨hname, hoptional, (List.map_id _).symm⟩, p.value, hvalue,
        rfl⟩

theorem Signature.reads_read
    (hkey : ∀ ms, (Json.object ms).depth ≤ n → Reads (readKey ms) fun k => k.Fits ms)
    (hread : ∀ ms, (Json.object ms).depth ≤ n → Reads (read ms) fun a => P a ms)
    {j : Json} (hj : j.depth ≤ n + 1) :
    Reads (Signature.read Json.view (readObject readKey) (readObject read) j) fun s =>
      (s.map P).Fits j := by
  have hparts := Json.depth_parts_le hj
  have h := (reads_record .signature (by decide : "valueType" ≠ "keyType")
    (fun i hi => reads_readObject hkey (hparts i hi)) fun i hi =>
      reads_readObject hread (hparts i hi)).map fun x => (⟨x.1, x.2⟩ : Signature α)
  refine h.congr fun s => ?_
  constructor
  · rintro ⟨x, hx, rfl⟩
    exact hx
  · exact fun hs => ⟨(s.key, s.value), hs, rfl⟩

/-- Each object of an array is read. -/
theorem reads_objects (hread : ∀ ms, (Json.object ms).depth ≤ n → Reads (read ms) fun a => P a ms)
    {j : Json} (hj : j.depth ≤ n + 1) :
    Reads (Json.view.items (readObject read) j) fun as =>
      IsArrayOf ((as.map P).map IsObject) j := by
  have h := reads_items fun i hi => reads_readObject hread (Json.depth_parts_le hj i hi)
  exact h.congr fun as => by rw [List.map_map]; rfl

/-- Each property of an array is read. -/
theorem reads_properties
    (hread : ∀ ms, (Json.object ms).depth ≤ n → Reads (read ms) fun a => P a ms)
    {j : Json} (hj : j.depth ≤ n + 1) :
    Reads (Json.view.items (Property.read Json.view read) j) fun ps =>
      IsArrayOf ((ps.map (·.map P)).map Property.Fits) j := by
  have h := reads_items fun i hi => Property.reads_read hread (Json.depth_parts_le hj i hi)
  exact h.congr fun as => by rw [List.map_map]; rfl

end

/-! ## Layers of one kind -/

section

variable {α : Type} {P : α → Members → Prop} {s : Shape α} {ms : Members}

/-- A layer is of a kind, and its payload fits. -/
def Shape.OfKind (P : α → Members → Prop) (ms : Members) (k : Kind) (s : Shape α) : Prop :=
  s.kind = k ∧ (s.map P).PayloadFits ms

namespace Shape

theorem fits_map_iff : (s.map P).Fits ms ↔ ∃ k, HasKind k ms ∧ s.OfKind P ms k := by
  rw [Fits, kind_map]
  constructor
  · rintro ⟨hk, hs⟩
    exact ⟨s.kind, hk, rfl, hs⟩
  · rintro ⟨k, hk, rfl, hs⟩
    exact ⟨hk, hs⟩

theorem ofKind_atom_iff {a : Atom} : s.OfKind P ms (.atom a) ↔ s = .atom a := by
  cases s <;> simp [OfKind, kind, map, PayloadFits]

theorem ofKind_literal_iff {k : LiteralKind} : s.OfKind P ms (.literal k) ↔
    ∃ l, OneField "value" (fun j => l.kind = k ∧ l.Fits j) ms ∧ s = .literal l := by
  constructor
  · rintro ⟨hk, hs⟩
    cases s with
    | literal l =>
      obtain ⟨j, hj, hl⟩ := hs
      exact ⟨l, ⟨j, hj, Kind.literal.inj hk, hl⟩, rfl⟩
    | _ => cases hk
  · rintro ⟨l, ⟨j, hj, hk, hl⟩, rfl⟩
    exact ⟨congrArg Kind.literal hk, j, hj, hl⟩

theorem ofKind_group_iff {g : Group} : s.OfKind P ms (.group g) ↔
    ∃ as, OneField g.field (IsArrayOf ((as.map P).map IsObject)) ms ∧ s = .group g as := by
  constructor
  · rintro ⟨hk, hs⟩
    cases s with
    | group g' as =>
      cases hk
      exact ⟨as, hs, rfl⟩
    | _ => cases hk
  · rintro ⟨as, has, rfl⟩
    exact ⟨rfl, has⟩

theorem ofKind_array_iff : s.OfKind P ms .array ↔
    ∃ a, OneField "type" (IsObject (P a)) ms ∧ s = .array a := by
  cases s <;> simp [OfKind, kind, map, PayloadFits]

theorem ofKind_object_iff : s.OfKind P ms .object ↔
    ∃ ps, OneField "props" (IsArrayOf ((ps.map (·.map P)).map Property.Fits)) ms ∧
      s = .object ps := by
  cases s <;> simp [OfKind, kind, map, PayloadFits]

theorem ofKind_index_iff : s.OfKind P ms .index ↔
    ∃ k a, OneField "keyType" (IsObject k.Fits) ms ∧ OneField "valueType" (IsObject (P a)) ms ∧
      s = .index ⟨k, a⟩ := by
  constructor
  · rintro ⟨hk, hs⟩
    cases s with
    | index t => exact ⟨t.key, t.value, hs.1, hs.2, rfl⟩
    | _ => cases hk
  · rintro ⟨k, a, hk, ha, rfl⟩
    exact ⟨rfl, hk, ha⟩

theorem ofKind_objectWithIndex_iff : s.OfKind P ms .objectWithIndex ↔
    ∃ ps t, OneField "props" (IsArrayOf ((ps.map (·.map P)).map Property.Fits)) ms ∧
      OneField "index" (t.map P).Fits ms ∧ s = .objectWithIndex ps t := by
  constructor
  · rintro ⟨hk, hs⟩
    cases s with
    | objectWithIndex ps t => exact ⟨ps, t, hs.1, hs.2, rfl⟩
    | _ => cases hk
  · rintro ⟨ps, t, hps, ht, rfl⟩
    exact ⟨rfl, hps, ht⟩

end Shape

end

/-- One layer is read by its schema if what is nested in it is. -/
theorem Shape.reads_ofMembers {α : Type} {P : α → Members → Prop}
    {readKey : Members → Except Problem KeyType} {read : Members → Except Problem α} {n : Nat}
    (hkey : ∀ ms, (Json.object ms).depth ≤ n → Reads (readKey ms) fun k => k.Fits ms)
    (hread : ∀ ms, (Json.object ms).depth ≤ n → Reads (read ms) fun a => P a ms)
    {ms : Members} (hms : (Json.object ms).depth ≤ n + 1) :
    Reads (Shape.ofMembers readKey read ms) fun s => (s.map P).Fits ms := by
  have hfield {name : String} {j : Json} (hj : j ∈ fieldValues name ms) : j.depth ≤ n :=
    Json.depth_object_le_iff.mp hms _ (mem_of_mem_fieldValues hj)
  have hdeep {name : String} {j : Json} (hj : j ∈ fieldValues name ms) : j.depth ≤ n + 1 :=
    Nat.le_succ_of_le (hfield hj)
  rw [Shape.ofMembers]
  dsimp only
  refine ((Kind.reads_ofMembers ms).bind (R := OfKind P ms) fun k _ => ?_).congr
    fun s => fits_map_iff.symm
  cases k with
  | atom a => exact (Reads.ok (Shape.atom a)).congr fun s => ofKind_atom_iff.symm
  | literal k =>
    have h := reads_oneField fun j (_ : j ∈ fieldValues "value" ms) => Literal.reads_read k j
    exact (h.map Shape.literal).congr fun s => ofKind_literal_iff.symm
  | group g =>
    have h := reads_oneField fun j (hj : j ∈ fieldValues g.field ms) =>
      reads_objects hread (hdeep hj)
    exact (h.map (Shape.group g)).congr fun s => ofKind_group_iff.symm
  | array =>
    have h := reads_oneField fun j (hj : j ∈ fieldValues "type" ms) =>
      reads_readObject hread (hfield hj)
    exact (h.map Shape.array).congr fun s => ofKind_array_iff.symm
  | object =>
    have h := reads_oneField fun j (hj : j ∈ fieldValues "props" ms) =>
      reads_properties hread (hdeep hj)
    exact (h.map Shape.object).congr fun s => ofKind_object_iff.symm
  | index =>
    have h := reads_twoFields (by decide : "valueType" ≠ "keyType")
      (fun i hi => reads_readObject hkey (hfield hi))
      (fun i hi => reads_readObject hread (hfield hi)) fun k a => (Shape.index ⟨k, a⟩ : Shape α)
    exact h.congr fun s => ofKind_index_iff.symm
  | objectWithIndex =>
    have h := reads_twoFields (by decide : "index" ≠ "props")
      (fun i hi => reads_properties hread (hdeep hi))
      (fun i hi => Signature.reads_read hkey hread (hdeep hi)) Shape.objectWithIndex
    exact h.congr fun s => ofKind_objectWithIndex_iff.symm

/-! ## Key types -/

/-- A model of a kind without a payload fits the members that give this kind. -/
theorem Model.fits_atom_iff {H : Type u} {m : Model H} {a : Atom} (hm : m.kind = .atom a)
    (ms : Members) : m.Fits ms ↔ m.origin = none ∧ HasKind (.atom a) ms := by
  rw [fits_iff, Shape.Fits, Shape.kind_map]
  obtain ⟨s, o⟩ := m
  cases s with
  | atom b =>
    cases hm
    simp [Shape.map, Shape.PayloadFits, Shape.kind]
  | _ => cases hm

theorem isArrayOf_pair_iff {p q : Json → Prop} {j : Json} :
    IsArrayOf [p, q] j ↔ ∃ a b, j = .array [a, b] ∧ p a ∧ q b := by
  constructor
  · intro h
    cases j with
    | array js =>
      rw [IsArrayOf] at h
      simp only [List.forall₂_cons_left_iff, List.forall₂_nil_left_iff] at h
      obtain ⟨a, _, ha, ⟨b, _, hb, rfl, rfl⟩, rfl⟩ := h
      exact ⟨a, b, rfl, ha, hb⟩
    | _ => exact h.elim
  · rintro ⟨a, b, rfl, ha, hb⟩
    exact .cons ha (.cons hb .nil)

theorem Model.isObject_atom_iff {H : Type u} {m : Model H} {a : Atom} (hm : m.kind = .atom a)
    {j : Json} : IsObject m.Fits j ↔ m.origin = none ∧ IsObject (HasKind (.atom a)) j := by
  cases j with
  | object ms => exact fits_atom_iff hm ms
  | _ => exact ⟨False.elim, And.right⟩

/-- The models of two atoms in a union fit an array of objects of these kinds. -/
theorem Model.fits_union_atoms_iff {H : Type u} {x y : Model H} {a b : Atom} (hx : x.kind = .atom a)
    (hy : y.kind = .atom b) (ms : Members) :
    (union [x, y]).Fits ms ↔ x.origin = none ∧ y.origin = none ∧ HasKind (.group .union) ms ∧
      OneField "types"
        (IsArrayOf [IsObject (HasKind (.atom a)), IsObject (HasKind (.atom b))]) ms := by
  have htypes (j : Json) : IsArrayOf [IsObject x.Fits, IsObject y.Fits] j ↔
      x.origin = none ∧ y.origin = none ∧
        IsArrayOf [IsObject (HasKind (.atom a)), IsObject (HasKind (.atom b))] j := by
    simp only [isArrayOf_pair_iff, isObject_atom_iff hx, isObject_atom_iff hy]
    constructor
    · rintro ⟨i, k, rfl, ⟨hxo, hi⟩, hyo, hk⟩
      exact ⟨hxo, hyo, i, k, rfl, hi, hk⟩
    · rintro ⟨hxo, hyo, i, k, rfl, hi, hk⟩
      exact ⟨i, k, rfl, ⟨hxo, hi⟩, hyo, hk⟩
  rw [fits_iff]
  constructor
  · rintro ⟨-, hkind, j, hj, h⟩
    obtain ⟨hxo, hyo, h⟩ := (htypes j).mp h
    exact ⟨hxo, hyo, hkind, j, hj, h⟩
  · rintro ⟨hxo, hyo, hkind, j, hj, h⟩
    exact ⟨rfl, hkind, j, hj, (htypes j).mpr ⟨hxo, hyo, h⟩⟩

/-- A key type is given by the members of a model that stands for it. -/
theorem KeyType.fits_iff {H : Type u} (k : KeyType) (ms : Members) :
    k.Fits ms ↔ ∃ m : Model H, m.Fits ms ∧ KeyType.ofModel? m = some k := by
  constructor
  · intro h
    cases k with
    | string => exact ⟨.ofAtom .string, (Model.fits_atom_iff rfl ms).mpr ⟨rfl, h⟩, rfl⟩
    | number => exact ⟨.ofAtom .number, (Model.fits_atom_iff rfl ms).mpr ⟨rfl, h⟩, rfl⟩
    | stringOrNumber =>
      obtain ⟨hkind, j, hj, h | h⟩ := h
      · exact ⟨.union [.ofAtom .string, .ofAtom .number],
          (Model.fits_union_atoms_iff rfl rfl ms).mpr ⟨rfl, rfl, hkind, j, hj, h⟩, rfl⟩
      · exact ⟨.union [.ofAtom .number, .ofAtom .string],
          (Model.fits_union_atoms_iff rfl rfl ms).mpr ⟨rfl, rfl, hkind, j, hj, h⟩, rfl⟩
  · rintro ⟨⟨s, o⟩, hm, hk⟩
    obtain rfl : o = none := ((Model.fits_iff _ _).mp hm).1
    rw [ofModel?] at hk
    split at hk
    next hs =>
      cases hk
      cases hs
      exact ((Model.fits_atom_iff rfl ms).mp hm).2
    next hs =>
      cases hk
      cases hs
      exact ((Model.fits_atom_iff rfl ms).mp hm).2
    next x y hs =>
      cases hs
      split at hk
      next hx hy =>
        cases hk
        obtain ⟨-, -, hkind, j, hj, h⟩ := (Model.fits_union_atoms_iff hx hy ms).mp hm
        exact ⟨hkind, j, hj, .inl h⟩
      next hx hy =>
        cases hk
        obtain ⟨-, -, hkind, j, hj, h⟩ := (Model.fits_union_atoms_iff hx hy ms).mp hm
        exact ⟨hkind, j, hj, .inr h⟩
      next => cases hk
    next => cases hk

theorem KeyType.reads_read {H : Type} (m : Model H) :
    Reads (KeyType.read m) fun k => KeyType.ofModel? m = some k := by
  rw [KeyType.read]
  cases h : KeyType.ofModel? m with
  | none => exact .refuse _ fun k hk => by cases hk
  | some k => exact (Reads.ok k).congr fun l => by rw [Option.some.injEq]; exact eq_comm

/-! ## Models -/

/-- A document that does not nest too deep is read as the models that it describes. -/
theorem Model.reads_ofMembers {H : Type} {levels : Nat} {ms : Members}
    (hms : (Json.object ms).depth ≤ levels) :
    Reads (ofMembers levels ms : Except Problem (Model H)) fun m => m.Fits ms := by
  induction levels generalizing ms with
  | zero => exact absurd hms (Nat.not_succ_le_zero _)
  | succ levels ih =>
    have hkey : ∀ ms, (Json.object ms).depth ≤ levels →
        Reads (ofMembers (H := H) levels ms >>= KeyType.read) fun k => k.Fits ms := fun ms h =>
      ((ih h).bind fun m _ => KeyType.reads_read m).congr fun k => (KeyType.fits_iff k ms).symm
    have hshape := (Shape.reads_ofMembers hkey (fun ms h => ih h) hms).map (ofShape (H := H))
    rw [ofMembers]
    refine hshape.congr fun m => ?_
    rw [fits_iff]
    constructor
    · rintro ⟨s, hs, rfl⟩
      exact ⟨rfl, hs⟩
    · rintro ⟨ho, hs⟩
      obtain ⟨s, o⟩ := m
      cases ho
      exact ⟨s, hs, rfl⟩

end TypeGraph
