import TypeGraph.Engine

/-!
# Engines up to the names of their handles

One engine may answer like another that knows its types by other handles. `Engine.Renames e e' r h`
says so of one type `h`, which the other engine knows as `r h`; only the flags that the rules look
at count. Types that answer alike have the same layer, with the handles renamed
(`Engine.classify_renames`).
-/

namespace TypeGraph

universe u v u' v'

variable {H : Type u} {S : Type v} {H' : Type u'} {S' : Type v'}

/-- The type flags that no rule looks at. -/
def TypeFlag.unread : List TypeFlag := [.index, .templateLiteral, .stringMapping]

namespace Engine

/-- The answers of two engines about a type, which they know by different handles, are the same as
far as the rules look at them. Handles correspond by `r`. -/
structure Renames (e : Engine H S) (e' : Engine H' S') (r : H → H') (h : H) : Prop where
  typeFlags : ∀ f ∉ TypeFlag.unread, (e'.typeFlags (r h)).has f = (e.typeFlags h).has f
  reference : (e'.objectFlags (r h)).has .reference = (e.objectFlags h).has .reference
  tuple : (e'.targetFlags (r h)).has .tuple = (e.targetFlags h).has .tuple
  typeArguments : e'.typeArguments (r h) = (e.typeArguments h).map r
  symbolName : (e'.typeSymbol (r h)).map e'.symbolName = (e.typeSymbol h).map e.symbolName
  stringLiteral : e'.stringLiteral (r h) = e.stringLiteral h
  numberLiteral : e'.numberLiteral (r h) = e.numberLiteral h
  booleanLiteral : e'.booleanLiteral (r h) = e.booleanLiteral h
  bigintLiteral : e'.bigintLiteral (r h) = e.bigintLiteral h
  memberTypes : e'.memberTypes (r h) = (e.memberTypes h).map r
  /-- name, `optional` flag and declared type of the properties, one by one -/
  properties : (e'.properties (r h)).map e'.property =
    (e.properties h).map fun s => (e.property s).map r
  stringIndex : e'.stringIndex (r h) = (e.stringIndex h).map r
  numberIndex : e'.numberIndex (r h) = (e.numberIndex h).map r

/-! ## Layers -/

section

variable {e : Engine H S} {e' : Engine H' S'} {r : H → H'} {h : H}

theorem firstAtom?_renames (hr : e.Renames e' r h) (rules : List (TypeFlag × Atom))
    (hu : ∀ rule ∈ rules, rule.1 ∉ TypeFlag.unread) :
    firstAtom? (e'.typeFlags (r h)) rules = firstAtom? (e.typeFlags h) rules := by
  rw [firstAtom?, firstAtom?]
  refine congrArg _ ?_
  induction rules with
  | nil => rfl
  | cons rule rules ih =>
    rw [List.forall_mem_cons] at hu
    rw [List.find?_cons, List.find?_cons, hr.typeFlags _ hu.1, ih hu.2]

theorem literal?_renames (hr : e.Renames e' r h) : e'.literal? (r h) = e.literal? h := by
  simp only [literal?, hr.typeFlags .stringLiteral (by decide),
    hr.typeFlags .numberLiteral (by decide), hr.typeFlags .booleanLiteral (by decide),
    hr.stringLiteral, hr.numberLiteral, hr.booleanLiteral]

theorem bigint?_renames (hr : e.Renames e' r h) : e'.bigint? (r h) = e.bigint? h := by
  simp only [bigint?, hr.typeFlags .bigintLiteral (by decide), hr.bigintLiteral]

theorem tupleSlots?_renames (hr : e.Renames e' r h) :
    e'.tupleSlots? (r h) = (e.tupleSlots? h).map (List.map r) := by
  simp only [tupleSlots?, hr.reference, hr.tuple, hr.typeArguments]
  split
  · cases e.typeArguments h <;> rfl
  · rfl

theorem arrayElement?_renames (hr : e.Renames e' r h) :
    e'.arrayElement? (r h) = (e.arrayElement? h).map r := by
  have hs := hr.symbolName
  simp only [arrayElement?, hr.reference, hr.typeArguments]
  split
  · cases e.typeArguments h with
    | nil => rfl
    | cons a as =>
      -- there is a symbol in both or in none, and then the names are compared
      cases hn : e.typeSymbol h <;> cases hn' : e'.typeSymbol (r h) <;>
        simp only [hn, hn', Option.map_none, Option.map_some, Option.some.injEq, reduceCtorEq] at hs
      · rfl
      · simp only [List.map_cons, hs]
        split <;> rfl
  · rfl

theorem signature?_renames (hr : e.Renames e' r h) :
    e'.signature? (r h) = (e.signature? h).map (·.map r) := by
  simp only [signature?, hr.stringIndex, hr.numberIndex]
  cases e.stringIndex h <;> cases e.numberIndex h <;> rfl

theorem objectShape_renames (hr : e.Renames e' r h) :
    e'.objectShape (r h) = (e.objectShape h).map r := by
  have hp : (e'.properties (r h)).map e'.property =
      ((e.properties h).map e.property).map (·.map r) := by
    rw [hr.properties, List.map_map]
    rfl
  simp only [objectShape, tupleSlots?_renames hr, arrayElement?_renames hr,
    signature?_renames hr, hp]
  cases e.tupleSlots? h with
  | some slots => rfl
  | none =>
    cases e.arrayElement? h with
    | some element => rfl
    | none => cases e.signature? h <;> rfl

/-- Types that answer alike have the same layer, with the handles renamed. -/
theorem classify_renames (hr : e.Renames e' r h) : e'.classify (r h) = (e.classify h).map r := by
  simp only [classify, hr.typeFlags .any (by decide), hr.typeFlags .unknown (by decide),
    hr.typeFlags .enumLiteral (by decide), hr.typeFlags .union (by decide),
    hr.typeFlags .enum (by decide), hr.typeFlags .object (by decide),
    hr.typeFlags .intersection (by decide), literal?_renames hr, bigint?_renames hr,
    firstAtom?_renames hr coreKeywords (by decide),
    firstAtom?_renames hr keywords (by decide),
    firstAtom?_renames hr markers (by decide), hr.memberTypes, objectShape_renames hr]
  cases e.literal? h <;> cases e.bigint? h <;> cases firstAtom? (e.typeFlags h) coreKeywords <;>
    cases firstAtom? (e.typeFlags h) keywords <;> cases firstAtom? (e.typeFlags h) markers <;>
    simp only [apply_ite (Shape.map r)] <;> rfl

end

end Engine

end TypeGraph
