import TypeGraph.Proofs.Model.Addresses
import TypeGraph.Proofs.Model.Origin

/-!
# Maps of origins with a state

A map of origins asks a function with a state of its own about each of them. To say what it was
asked and what it answered, `Model.asked` puts both in the place of the origins. From this one tree
come the old model, the new one and the calls (`mapOrigin_asked`, `filterMapOriginAccum_eq_asked`,
`filterMapOriginAccum_noting`), so that the three can be compared address by address.

The calls go through the models of the tree in postorder: `Model.postorder` lists them with their
addresses, what is nested in a model before the model and children in their order
(`sorted_postorder`).
-/

namespace TypeGraph

universe u v

namespace Model

/-! ## Postorder -/

section postorder

variable {H : Type u}

/-- The model and all models nested in it, with their addresses, each behind its children and
children in order. -/
def postorder : Model H → List (List ℕ × Model H) :=
  fold fun m runs => numbered runs.children ++ [([], m)]

theorem postorder_eq (m : Model H) :
    m.postorder = numbered (m.children.map postorder) ++ [([], m)] := by
  rw [postorder, fold_eq, Shape.children_map]
  rfl

theorem mem_postorder_iff {m x : Model H} {a : List ℕ} :
    (a, x) ∈ m.postorder ↔ m.get? a = some x := by
  induction m using Model.induction generalizing a with
  | mk s o ih =>
    rw [postorder_eq, List.mem_append, List.mem_singleton, Prod.mk.injEq]
    cases a with
    | nil => simp [nil_notMem_numbered, eq_comm]
    | cons i a =>
      rw [cons_mem_numbered, get?_cons, Option.bind_eq_some_iff]
      simp only [List.getElem?_map, Option.map_eq_some_iff, reduceCtorEq, false_and, or_false]
      constructor
      · rintro ⟨_, ⟨c, hi, rfl⟩, hx⟩
        exact ⟨c, hi, (ih c (List.mem_of_getElem? hi)).mp hx⟩
      · rintro ⟨c, hi, hx⟩
        exact ⟨_, ⟨c, hi, rfl⟩, (ih c (List.mem_of_getElem? hi)).mpr hx⟩

/-- Whether an address comes before another in postorder: if it leads on from the other, or parts
from it to a child with a smaller number. -/
def Before (a b : List ℕ) : Prop := (b <+: a ∧ a ≠ b) ∨ (¬ a <+: b ∧ a < b)

theorem before_nil {i : ℕ} {a : List ℕ} : Before (i :: a) [] :=
  .inl ⟨List.nil_prefix, List.cons_ne_nil i a⟩

theorem Before.cons {i : ℕ} {a b : List ℕ} (h : Before a b) : Before (i :: a) (i :: b) := by
  simpa [Before, List.cons_lt_cons_iff] using h

theorem Before.of_lt {i j : ℕ} {a b : List ℕ} (h : i < j) : Before (i :: a) (j :: b) :=
  .inr ⟨fun hp => h.ne (List.cons_prefix_cons.mp hp).1, cons_lt_cons_of_lt h⟩

theorem sorted_postorder (m : Model H) : (m.postorder.map (·.1)).Pairwise Before := by
  induction m using Model.induction with
  | mk s o ih =>
    rw [postorder_eq, List.map_append, List.pairwise_append]
    refine ⟨pairwise_numbered Before.cons Before.of_lt ?_, List.pairwise_singleton .., ?_⟩
    · intro vs hvs
      obtain ⟨c, hc, rfl⟩ := List.mem_map.mp hvs
      exact ih c hc
    · rintro (_ | ⟨i, a⟩) ha b hb
      · obtain ⟨⟨_, x⟩, hx, rfl⟩ := List.mem_map.mp ha
        exact absurd hx nil_notMem_numbered
      · obtain rfl := List.mem_singleton.mp hb
        exact before_nil

end postorder

/-! ## Questions and answers -/

variable {H G σ : Type u}

/-- What becomes of an origin, which may be missing. -/
def ask (f : H → σ → Option G × σ) : Option H → σ → Option G × σ
  | none, st => (none, st)
  | some h, st => f h st

theorem filterMapOriginAccum_eq (f : H → σ → Option G × σ) (m : Model H) (st : σ) :
    m.filterMapOriginAccum f st =
      let r := m.shape.mapAccum (filterMapOriginAccum f) st
      (⟨r.1, (ask f m.origin r.2).1⟩, (ask f m.origin r.2).2) := by
  rw [filterMapOriginAccum, fold_eq, Shape.mapAccum_map]
  cases m.origin <;> rfl

/-- The model with what `f` is asked, and what it answers, in the place of each origin. -/
def asked (f : H → σ → Option G × σ) : Model H → σ → Model (H × Option G) × σ :=
  filterMapOriginAccum fun h st => (some (h, (f h st).1), (f h st).2)

theorem asked_eq (f : H → σ → Option G × σ) (m : Model H) (st : σ) :
    m.asked f st =
      let r := m.shape.mapAccum (asked f) st
      (⟨r.1, m.origin.map fun h => (h, (f h r.2).1)⟩, (ask f m.origin r.2).2) := by
  rw [asked, filterMapOriginAccum_eq]
  cases m.origin <;> rfl

/-- What was asked is the old model. -/
theorem mapOrigin_asked (f : H → σ → Option G × σ) (m : Model H) (st : σ) :
    (m.asked f st).1.mapOrigin (·.1) = m := by
  induction m using Model.induction generalizing st with
  | mk s o ih =>
    rw [asked_eq, mapOrigin_eq]
    dsimp only
    rw [Shape.map_mapAccum (q := id) fun c hc st => ih c hc st, Shape.map_id, Option.map_map]
    exact congrArg (mk s) Option.map_id_apply

/-- What was answered is the new model. -/
theorem filterMapOriginAccum_eq_asked (f : H → σ → Option G × σ) (m : Model H) (st : σ) :
    m.filterMapOriginAccum f st =
      ((m.asked f st).1.filterMapOrigin (·.2), (m.asked f st).2) := by
  induction m using Model.induction generalizing st with
  | mk s o ih =>
    rw [asked_eq, filterMapOriginAccum_eq, filterMapOrigin_eq]
    dsimp only
    rw [Shape.mapAccum_eq_map fun c hc st => ih c hc st]
    cases o <;> rfl

/-- What was asked and answered, in postorder, is what a function notes. -/
theorem filterMapOriginAccum_noting (f : H → σ → Option G × σ) (m : Model H) (st : σ)
    (log : List (H × Option G)) :
    m.filterMapOriginAccum (noting f) (st, log) =
      ((m.asked f st).1.filterMapOrigin (·.2), (m.asked f st).2,
        log ++ (m.asked f st).1.postorder.filterMap (·.2.origin)) := by
  induction m using Model.induction generalizing st log with
  | mk s o ih =>
    rw [asked_eq, filterMapOriginAccum_eq, filterMapOrigin_eq, postorder_eq]
    dsimp only
    rw [Shape.mapAccum_log (q := fun t => (postorder t).filterMap (·.2.origin))
      fun c hc st log => ih c hc st log]
    rw [List.filterMap_append, filterMap_snd_numbered]
    cases o with
    | none => simp [ask, children, List.flatMap_map]
    | some h => simp [ask, noting, children, List.flatMap_map]

theorem filterMapOriginAccum_pure (f : H → Option G) (m : Model H) (st : σ) :
    m.filterMapOriginAccum (fun h st => (f h, st)) st = (m.filterMapOrigin f, st) := by
  induction m using Model.induction generalizing st with
  | mk s o ih =>
    have hs := Shape.mapAccum_pure ih st
    rw [filterMapOriginAccum_eq, filterMapOrigin_eq, hs]
    cases o <;> rfl

/-! ## The calls -/

/-- The origin of the model at an address. -/
def originAt (m : Model H) (a : List ℕ) : Option H := (m.get? a).bind origin

/-- The calls that a model of questions and answers stands for, each with the address of the model
whose origin it was about. -/
def calls (t : Model (H × Option G)) : List (List ℕ × H × Option G) :=
  t.postorder.filterMap fun (a, x) => x.origin.map fun call => (a, call)

/-- One model becomes the other by these calls: they are made for the models with an origin, in
postorder, and each answer is the new origin at the address. All else stays as it is. -/
structure MapsOrigins (m : Model H) (calls : List (List ℕ × H × Option G)) (n : Model G) :
    Prop where
  sorted : (calls.map (·.1)).Pairwise Before
  mem_iff : ∀ a h g, (a, h, g) ∈ calls ↔ m.originAt a = some h ∧ n.originAt a = g
  none_of_none : ∀ a, m.originAt a = none → n.originAt a = none
  form : ∀ a, (n.get? a).map (·.shape.form) = (m.get? a).map (·.shape.form)
  text : n.text = m.text
  kinds : n.kinds = m.kinds

theorem sorted_calls (t : Model (H × Option G)) : (t.calls.map (·.1)).Pairwise Before := by
  have sorted := sorted_postorder t
  rw [calls, List.map_filterMap, List.pairwise_filterMap]
  rw [List.pairwise_map] at sorted
  refine sorted.imp ?_
  rintro ⟨a, x⟩ ⟨b, y⟩ hab a' ha b' hb
  simp only [Option.map_map, Option.map_eq_some_iff, Function.comp_apply] at ha hb
  obtain ⟨_, -, rfl⟩ := ha
  obtain ⟨_, -, rfl⟩ := hb
  exact hab

theorem mem_calls_iff {t : Model (H × Option G)} {a : List ℕ} {call : H × Option G} :
    (a, call) ∈ t.calls ↔ t.originAt a = some call := by
  rw [calls, List.mem_filterMap, originAt, Option.bind_eq_some_iff]
  constructor
  · rintro ⟨⟨b, x⟩, hx, ho⟩
    obtain ⟨_, hcall, he⟩ := Option.map_eq_some_iff.mp ho
    obtain ⟨rfl, rfl⟩ := Prod.mk.inj he
    exact ⟨x, mem_postorder_iff.mp hx, hcall⟩
  · rintro ⟨x, hx, ho⟩
    exact ⟨(a, x), mem_postorder_iff.mpr hx, Option.map_eq_some_iff.mpr ⟨call, ho, rfl⟩⟩

theorem get?_filterMapOrigin {F : Type v} (f : F → Option G) (m : Model F) (a : List ℕ) :
    (m.filterMapOrigin f).get? a = (m.get? a).map (filterMapOrigin f) :=
  get?_of_children (children_filterMapOrigin f) m a

theorem originAt_filterMapOrigin {F : Type v} (f : F → Option G) (m : Model F) (a : List ℕ) :
    (m.filterMapOrigin f).originAt a = (m.originAt a).bind f := by
  rw [originAt, originAt, get?_filterMapOrigin]
  cases m.get? a with
  | none => rfl
  | some x => exact congrArg origin (filterMapOrigin_eq f x)

theorem originAt_mapOrigin {F : Type v} (f : F → G) (m : Model F) (a : List ℕ) :
    (m.mapOrigin f).originAt a = (m.originAt a).map f :=
  (originAt_filterMapOrigin ..).trans Option.map_eq_bind.symm

theorem form_filterMapOrigin {F : Type v} (f : F → Option G) (m : Model F) (a : List ℕ) :
    ((m.filterMapOrigin f).get? a).map (·.shape.form) = (m.get? a).map (·.shape.form) := by
  rw [get?_filterMapOrigin, Option.map_map]
  refine congrArg (Option.map · _) (funext fun x => ?_)
  exact (congrArg (·.shape.form) (filterMapOrigin_eq f x)).trans (Shape.form_map ..)

theorem mapsOrigins_calls (t : Model (H × Option G)) :
    MapsOrigins (t.mapOrigin (·.1)) t.calls (t.filterMapOrigin (·.2)) where
  sorted := sorted_calls t
  mem_iff a h g := by
    rw [mem_calls_iff, originAt_mapOrigin, originAt_filterMapOrigin]
    cases t.originAt a with
    | none => simp
    | some call => simp [Prod.ext_iff]
  none_of_none a := by
    rw [originAt_mapOrigin, originAt_filterMapOrigin, Option.map_eq_none_iff]
    intro ha
    rw [ha]
    rfl
  form a := (form_filterMapOrigin ..).trans (form_filterMapOrigin ..).symm
  text := (text_filterMapOrigin ..).trans (text_filterMapOrigin ..).symm
  kinds := (kinds_filterMapOrigin ..).trans (kinds_filterMapOrigin ..).symm

/-- A map of origins calls its function once for each model with an origin, in postorder, puts each
answer in the place of the origin that it was asked about, and changes nothing else. So two maps
make one, a map by the identity changes nothing, and where origins are only cleared the rest of each
model stays. -/
theorem map_origins_in_postorder {F : Type u} (m : Model H) :
    (∀ (f : H → σ → Option G × σ) (st : σ), ∃ calls,
      m.filterMapOriginAccum (noting f) (st, []) =
        ((m.filterMapOriginAccum f st).1, (m.filterMapOriginAccum f st).2, calls.map (·.2)) ∧
      m.MapsOrigins calls (m.filterMapOriginAccum f st).1) ∧
    (∀ (f : H → Option G) (st : σ),
      m.filterMapOriginAccum (fun h st => (f h, st)) st = (m.filterMapOrigin f, st)) ∧
    (∀ (f : G → Option F) (g : H → Option G),
      (m.filterMapOrigin g).filterMapOrigin f = m.filterMapOrigin fun h => (g h).bind f) ∧
    (∀ (f : G → F) (g : H → G), (m.mapOrigin g).mapOrigin f = m.mapOrigin (f ∘ g)) ∧
    m.filterMapOrigin some = m ∧
    m.mapOrigin id = m ∧
    ∀ a, ((m.detach : Model G).get? a).map (fun x => (x.shape.form, x.origin)) =
      (m.get? a).map fun x => (x.shape.form, none) := by
  refine ⟨fun f st => ⟨(m.asked f st).1.calls, ?noted, ?maps⟩,
    fun f st => filterMapOriginAccum_pure f m st,
    fun f g => filterMapOrigin_filterMapOrigin f g m,
    fun f g => mapOrigin_mapOrigin f g m,
    filterMapOrigin_some m, filterMapOrigin_some m, fun a => ?detach⟩
  case noted =>
    rw [filterMapOriginAccum_noting, filterMapOriginAccum_eq_asked, calls, List.map_filterMap]
    simp
  case maps =>
    have h := mapsOrigins_calls (m.asked f st).1
    rw [mapOrigin_asked] at h
    rwa [filterMapOriginAccum_eq_asked]
  case detach =>
    rw [detach, get?_filterMapOrigin, Option.map_map]
    refine congrArg (Option.map · _) (funext fun x => ?_)
    rw [Function.comp_apply, filterMapOrigin_eq, Shape.form_map, Option.bind_fun_none]

end Model

end TypeGraph
