import TypeGraph.Model.Origin
import TypeGraph.Model.Writer
import TypeGraph.Proofs.Double.Rounding
import TypeGraph.Proofs.Model.Walk

/-!
# What a model reads back as

`Model.readBack` is a model without its origins and without the signs of its zeros. It says the
same as the model if all number literals are finite (`Model.readBack_same`), and it is written in
the same way (`Model.members_readBack`).
-/

namespace TypeGraph

universe u v w

/-! ## Literals -/

namespace Double

theorem isFinite_of_isZero {d : Double} (hz : d.isZero = true) : d.isFinite = true := by
  rw [isFinite_iff, decide_eq_true_iff.mp hz]
  decide

theorem integer?_of_isZero {d : Double} (hz : d.isZero = true) : d.integer? = some 0 := by
  have ht : d.ticks = 0 := (ticks_eq_zero_iff d).mpr hz
  rw [integer?, isFinite_of_isZero hz, ht, Nat.zero_mod, Nat.zero_div]
  simp

theorem isZero_eq_false {d : Double} (hi : d.integer? ≠ some 0) : d.isZero = false :=
  Bool.eq_false_of_not_eq_true (mt integer?_of_isZero hi)

theorem unsignedZero_of_ne {d : Double} (hz : d.isZero = false) : d.unsignedZero = d := by
  rw [unsignedZero, hz]
  rfl

theorem isZero_unsignedZero (d : Double) : d.unsignedZero.isZero = d.isZero := by
  rw [unsignedZero]
  split
  next hz =>
    rw [hz]
    rfl
  next => rfl

/-- A finite number equals itself without the sign of a zero. -/
theorem unsignedZero_same {d : Double} (hd : d.isFinite = true) :
    d.unsignedZero.same d = true := by
  have hn : d.isNaN = false := by
    rw [isFinite_iff] at hd
    exact decide_eq_false (by omega)
  cases hz : d.isZero with
  | false =>
    rw [unsignedZero_of_ne hz]
    simp [same, hn]
  | true =>
    have hn' : (ofMagnitude false 0).isNaN = false := by decide
    have hz' : (ofMagnitude false 0).isZero = true := by decide
    simp [unsignedZero, same, hz, hn, hn', hz']

/-- Both zeros are written the same. -/
theorem toJson_unsignedZero (d : Double) : d.unsignedZero.toJson = d.toJson := by
  cases hz : d.isZero with
  | false => rw [unsignedZero_of_ne hz]
  | true =>
    have hz' := (isZero_unsignedZero d).trans hz
    rw [toJson, toJson, integer?_of_isZero hz, integer?_of_isZero hz']
    rfl

end Double

namespace Literal

/-- Whether a literal is no infinite number and no NaN. -/
def isFinite : Literal → Bool
  | number d => d.isFinite
  | _ => true

/-- A literal without the sign of a zero. -/
def unsigned : Literal → Literal
  | number d => number d.unsignedZero
  | l => l

theorem unsigned_same {l : Literal} (hl : l.isFinite = true) : l.unsigned.same l = true := by
  cases l with
  | number d => exact Double.unsignedZero_same hl
  | _ => exact decide_eq_true rfl

theorem toJson_unsigned (l : Literal) : l.unsigned.toJson = l.toJson := by
  cases l with
  | number d => exact d.toJson_unsignedZero
  | _ => rfl

theorem kind_unsigned (l : Literal) : l.unsigned.kind = l.kind := by
  cases l <;> rfl

end Literal

/-! ## Layers -/

theorem listAgrees_map_left {α : Type u} {β : Type v} {γ : Type w} (f : α → β) (r : β → γ → Bool)
    (as : List α) (cs : List γ) :
    listAgrees r (as.map f) cs = listAgrees (fun a => r (f a)) as cs := by
  induction as generalizing cs with
  | nil => cases cs <;> rfl
  | cons a as ih =>
    cases cs with
    | nil => rfl
    | cons c cs => rw [List.map_cons, listAgrees, listAgrees, ih]

theorem listAgrees_self {α : Type u} {r : α → α → Bool} {as : List α}
    (h : ∀ a ∈ as, r a a = true) : listAgrees r as as = true := by
  induction as with
  | nil => rfl
  | cons a as ih =>
    rw [List.forall_mem_cons] at h
    rw [listAgrees, h.1, ih h.2]
    rfl

namespace Shape

variable {α : Type u} {β : Type v} {γ : Type w}

/-- Whether a layer is no number literal that is infinite or a NaN. -/
def isFinite : Shape α → Bool
  | literal l => l.isFinite
  | _ => true

/-- A layer without the sign of a zero. -/
def unsigned : Shape α → Shape α
  | literal l => literal l.unsigned
  | s => s

theorem isFinite_map (f : α → β) (s : Shape α) : (s.map f).isFinite = s.isFinite := by
  cases s <;> rfl

theorem isFinite_iff (s : Shape α) :
    s.isFinite = true ↔ ∀ d, s = .literal (.number d) → d.isFinite = true := by
  constructor
  · rintro h d rfl
    exact h
  · intro h
    cases s with
    | literal l =>
      cases l with
      | number d => exact h d rfl
      | _ => rfl
    | _ => rfl

theorem members_unsigned (s : Shape Members) : s.unsigned.members = s.members := by
  cases s with
  | literal l => simp only [unsigned, members, payload, kind, l.toJson_unsigned, l.kind_unsigned]
  | _ => rfl

theorem unsigned_map (f : α → β) (s : Shape α) : (s.map f).unsigned = s.unsigned.map f := by
  cases s <;> rfl

@[simp] theorem children_unsigned (s : Shape α) : s.unsigned.children = s.children := by
  cases s <;> rfl

theorem agrees_map_left (f : α → β) (r : β → γ → Bool) (s : Shape α) (t : Shape γ) :
    (s.map f).agrees r t = s.agrees (fun a => r (f a)) t := by
  cases s <;> cases t <;> try rfl
  case group.group => simp only [map, agrees, listAgrees_map_left]
  case object.object =>
    simp only [map, agrees, listAgrees_map_left]
    rfl
  case objectWithIndex.objectWithIndex =>
    simp only [map, agrees, listAgrees_map_left]
    rfl

/-- A layer of a finite literal agrees with itself without the sign of a zero, if what is nested
in it agrees with itself. -/
theorem unsigned_agrees {r : α → α → Bool} {s : Shape α} (hs : s.isFinite = true)
    (h : ∀ a ∈ s.children, r a a = true) : s.unsigned.agrees r s = true := by
  have hprops {ps : List (Property α)} (hp : ∀ a ∈ ps.map (·.value), r a a = true) :
      listAgrees (Property.agrees r) ps ps = true :=
    listAgrees_self fun p hp' => by simp [Property.agrees, hp _ (List.mem_map_of_mem hp')]
  have hsignature {t : Signature α} (ht : r t.value t.value = true) : t.agrees r t = true := by
    simp [Signature.agrees, ht]
  cases s with
  | atom a => exact decide_eq_true rfl
  | literal l => exact Literal.unsigned_same hs
  | group g as =>
    have has : listAgrees r as as = true := listAgrees_self h
    simp [unsigned, agrees, has]
  | array a => exact h a (List.mem_singleton_self a)
  | index t => exact hsignature (h t.value (List.mem_singleton_self _))
  | object ps => exact hprops h
  | objectWithIndex ps t =>
    simp only [children, List.forall_mem_append, List.forall_mem_singleton] at h
    simp only [unsigned, agrees, hprops h.1, hsignature h.2, Bool.and_self]

end Shape

namespace Model

variable {H : Type u} {G : Type v}

/-- The model as which one reads back: without origins and without the signs of zeros. -/
def readBack : Model H → Model G := fold fun _ s => ⟨s.unsigned, none⟩

theorem readBack_eq (m : Model H) :
    (m.readBack : Model G) = ⟨(m.shape.map readBack).unsigned, none⟩ := fold_eq _ m

theorem members_readBack (m : Model H) : (m.readBack : Model G).members = m.members := by
  induction m using induction with
  | mk s o ih =>
    rw [readBack_eq, members_eq, members_eq, ← Shape.unsigned_map, Shape.members_unsigned,
      Shape.map_map]
    exact congrArg Shape.members (Shape.map_congr ih)

/-- No model of a tree carries an origin. -/
def Detached (m : Model H) : Prop := ∀ x ∈ m.preorder, x.origin = none

/-- What reads back carries no origin. -/
theorem detached_readBack (m : Model H) : (m.readBack : Model G).Detached := by
  induction m using induction with
  | mk s o ih =>
    rw [readBack_eq]
    intro x hx
    rw [preorder_eq, List.mem_cons, List.mem_flatMap] at hx
    rcases hx with rfl | ⟨c, hc, hx⟩
    · rfl
    · rw [children, Shape.children_unsigned, Shape.children_map, List.mem_map] at hc
      obtain ⟨c, hc, rfl⟩ := hc
      exact ih c hc x hx

theorem same_eq (m : Model H) (n : Model G) :
    m.same n = m.shape.agrees (fun a b => a.same b) n.shape := by
  rw [same, fold_eq, Shape.agrees_map_left]
  rfl

/-- All number literals of a model are finite. -/
def FiniteNumbers (m : Model H) : Prop :=
  ∀ x ∈ m.preorder, ∀ d, x.shape = .literal (.number d) → d.isFinite = true

/-- Whether all number literals are finite. -/
def isFinite : Model H → Bool := fold fun _ s => s.isFinite && s.children.all id

theorem isFinite_eq (m : Model H) :
    m.isFinite = (m.shape.isFinite && m.children.all isFinite) := by
  rw [isFinite, fold_eq, Shape.isFinite_map, Shape.children_map, List.all_map]
  rfl

theorem isFinite_iff (m : Model H) : m.isFinite = true ↔ m.FiniteNumbers := by
  induction m using induction with
  | mk s o ih =>
    rw [FiniteNumbers, isFinite_eq, preorder_eq, List.forall_mem_cons, Bool.and_eq_true,
      List.all_eq_true, List.forall_mem_flatMap]
    exact and_congr (Shape.isFinite_iff s) (forall₂_congr ih)

/-- A model of finite number literals says the same as what it reads back as. -/
theorem readBack_same {m : Model H} (hm : m.isFinite = true) :
    (m.readBack : Model G).same m = true := by
  induction m using induction with
  | mk s o ih =>
    rw [isFinite_eq, Bool.and_eq_true, List.all_eq_true] at hm
    rw [readBack_eq, same_eq, Shape.unsigned_map, Shape.agrees_map_left]
    exact Shape.unsigned_agrees hm.1 fun c hc => ih c hc (hm.2 c hc)

end Model

end TypeGraph
