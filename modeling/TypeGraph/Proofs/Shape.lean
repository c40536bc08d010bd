import TypeGraph.Shape

/-!
# A layer as its form and its nested values

A layer is what it says by itself (`Shape.form`, with nothing nested in it) together with the list
of its nested values (`Shape.ext_children`). So a fact about a layer and a function that goes
through it is a fact about a list:

* `Shape.form_mapAccum`, `Shape.children_mapAccum`, `Shape.state_mapAccum`: a map with a state keeps
  the form, and goes through the nested values as through a list;
* `mapAccum_sim`: two maps whose states stay related give the same list.
-/

namespace TypeGraph

universe u u' v w x y

variable {α : Type u} {α' : Type u'} {β : Type v} {γ : Type w} {σ : Type x} {τ : Type y}

/-! ## Lists -/

theorem mapAccum_cons (f : α → σ → β × σ) (a : α) (as : List α) (st : σ) :
    mapAccum f (a :: as) st =
      ((f a st).1 :: (mapAccum f as (f a st).2).1, (mapAccum f as (f a st).2).2) := rfl

theorem mapAccum_map (f : α → σ → β × σ) (k : α' → α) (as : List α') (st : σ) :
    mapAccum f (as.map k) st = mapAccum (fun a => f (k a)) as st := by
  induction as generalizing st with
  | nil => rfl
  | cons a as ih => simp only [List.map_cons, mapAccum_cons, ih]

/-- What a map with a state keeps of each element, it keeps of the list. -/
theorem map_mapAccum {f : α → σ → β × σ} {p : β → γ} {q : α → γ} {as : List α}
    (h : ∀ a ∈ as, ∀ st, p (f a st).1 = q a) (st : σ) :
    (mapAccum f as st).1.map p = as.map q := by
  induction as generalizing st with
  | nil => rfl
  | cons a as ih =>
    simp only [mapAccum_cons, List.map_cons, h a (List.mem_cons_self ..),
      ih (fun b hb => h b (List.mem_cons_of_mem _ hb))]

/-- Two maps whose states stay related give the same list. -/
theorem mapAccum_sim {R : σ → τ → Prop} {f : α → σ → β × σ} {g : α → τ → β × τ} {as : List α}
    (step : ∀ a ∈ as, ∀ st tt, R st tt → (f a st).1 = (g a tt).1 ∧ R (f a st).2 (g a tt).2)
    {st : σ} {tt : τ} (h : R st tt) :
    (mapAccum f as st).1 = (mapAccum g as tt).1 ∧
      R (mapAccum f as st).2 (mapAccum g as tt).2 := by
  induction as generalizing st tt with
  | nil => exact ⟨rfl, h⟩
  | cons a as ih =>
    obtain ⟨e, h'⟩ := step a (List.mem_cons_self ..) st tt h
    obtain ⟨es, hs⟩ := ih (fun b hb => step b (List.mem_cons_of_mem _ hb)) h'
    exact ⟨by rw [mapAccum_cons, mapAccum_cons, e, es], hs⟩

/-- What every step keeps of the state, the whole map keeps. -/
theorem mapAccum_inv {I : σ → Prop} {f : α → σ → β × σ} {as : List α}
    (step : ∀ a ∈ as, ∀ st, I st → I (f a st).2) {st : σ} (h : I st) :
    I (mapAccum f as st).2 := by
  induction as generalizing st with
  | nil => exact h
  | cons a as ih =>
    exact ih (fun b hb => step b (List.mem_cons_of_mem _ hb))
      (step a (List.mem_cons_self ..) st h)

/-- Each element of the result comes from a state that every step keeps. -/
theorem exists_of_mem_mapAccum {I : σ → Prop} {f : α → σ → β × σ} {as : List α}
    (step : ∀ a ∈ as, ∀ st, I st → I (f a st).2) {st : σ} (h : I st) {b : β}
    (hb : b ∈ (mapAccum f as st).1) : ∃ a ∈ as, ∃ st', I st' ∧ b = (f a st').1 := by
  induction as generalizing st with
  | nil => exact absurd hb List.not_mem_nil
  | cons a as ih =>
    obtain rfl | hb := List.mem_cons.mp hb
    · exact ⟨a, List.mem_cons_self .., st, h, rfl⟩
    · obtain ⟨a', ha', st', hst', hb'⟩ :=
        ih (fun b hb => step b (List.mem_cons_of_mem _ hb)) (step a (List.mem_cons_self ..) st h) hb
      exact ⟨a', List.mem_cons_of_mem _ ha', st', hst', hb'⟩

/-- Two maps that go through the same states give lists that correspond. -/
theorem mapAccum_eq_map {f : α → σ → β × σ} {g : α → σ → γ × σ} {p : β → γ} {as : List α}
    (h : ∀ a ∈ as, ∀ st, g a st = (p (f a st).1, (f a st).2)) (st : σ) :
    mapAccum g as st = ((mapAccum f as st).1.map p, (mapAccum f as st).2) := by
  induction as generalizing st with
  | nil => rfl
  | cons a as ih =>
    rw [mapAccum_cons, mapAccum_cons, h a (List.mem_cons_self ..),
      ih (fun b hb => h b (List.mem_cons_of_mem _ hb)), List.map_cons]

theorem state_mapAccum_eq_foldl (f : α → σ → β × σ) (as : List α) (st : σ) :
    (mapAccum f as st).2 = as.foldl (fun st a => (f a st).2) st := by
  induction as generalizing st with
  | nil => rfl
  | cons a as ih => rw [mapAccum_cons, ih, List.foldl_cons]

/-- A map that keeps a log goes through the states of a map without one, and logs what that
gives. -/
theorem mapAccum_log {f : α → σ → β × σ} {g : α → σ × List τ → γ × σ × List τ} {p : β → γ}
    {q : β → List τ} {as : List α}
    (h : ∀ a ∈ as, ∀ st log, g a (st, log) = (p (f a st).1, (f a st).2, log ++ q (f a st).1))
    (st : σ) (log : List τ) :
    mapAccum g as (st, log) =
      ((mapAccum f as st).1.map p, (mapAccum f as st).2,
        log ++ (mapAccum f as st).1.flatMap q) := by
  induction as generalizing st log with
  | nil => exact Prod.ext rfl (Prod.ext rfl (List.append_nil log).symm)
  | cons a as ih =>
    rw [List.forall_mem_cons] at h
    rw [mapAccum_cons, mapAccum_cons, h.1, ih h.2, List.flatMap_cons, List.append_assoc]
    rfl

theorem foldl_log {f : α → σ → β × σ} {g : σ × List τ → α → σ × List τ} {q : β → List τ}
    {as : List α} (h : ∀ a ∈ as, ∀ st log, g (st, log) a = ((f a st).2, log ++ q (f a st).1))
    (st : σ) (log : List τ) :
    as.foldl g (st, log) = ((mapAccum f as st).2, log ++ (mapAccum f as st).1.flatMap q) :=
  calc as.foldl g (st, log)
    _ = (mapAccum (fun a s => ((), g s a)) as (st, log)).2 :=
      (state_mapAccum_eq_foldl (fun a s => ((), g s a)) as (st, log)).symm
    _ = _ := by rw [mapAccum_log (p := fun _ => ()) fun a ha st log => by rw [h a ha]]

/-- What relates each element to its result relates the lists, place by place. -/
theorem rel_mapAccum {R : α → β → Prop} {f : α → σ → β × σ} {as : List α}
    (h : ∀ a ∈ as, ∀ st, R a (f a st).1) (st : σ) (i : Nat) :
    Option.Rel R as[i]? (mapAccum f as st).1[i]? := by
  induction as generalizing st i with
  | nil => exact .none
  | cons a as ih =>
    rw [List.forall_mem_cons] at h
    cases i with
    | zero => exact .some (h.1 st)
    | succ i => exact ih h.2 _ i

/-- A step that also writes down what it was asked and what it answered. -/
def noting (f : α → σ → β × σ) (a : α) (st : σ × List (α × β)) : β × σ × List (α × β) :=
  ((f a st.1).1, (f a st.1).2, st.2 ++ [(a, (f a st.1).1)])

theorem map_eq_of_zip {f : α → β} {as : List α} {bs : List β} (hl : as.length = bs.length)
    (h : ∀ p ∈ as.zip bs, f p.1 = p.2) : as.map f = bs := by
  induction as generalizing bs with
  | nil => exact (List.length_eq_zero_iff.mp hl.symm).symm
  | cons a as ih =>
    cases bs with
    | nil => exact absurd hl (Nat.succ_ne_zero _)
    | cons b bs =>
      rw [List.zip_cons_cons, List.forall_mem_cons] at h
      rw [List.map_cons, h.1, ih (Nat.succ.inj hl) h.2]

theorem forall_mem_zip_map {f : α → β} {as : List α} {P : α × β → Prop}
    (h : ∀ a ∈ as, P (a, f a)) : ∀ p ∈ as.zip (as.map f), P p := by
  induction as with
  | nil => exact fun p hp => absurd hp List.not_mem_nil
  | cons a as ih =>
    rw [List.forall_mem_cons] at h
    rw [List.map_cons, List.zip_cons_cons, List.forall_mem_cons]
    exact ⟨h.1, ih h.2⟩

namespace Shape

/-! ## Form and nested values -/

/-- What a layer says by itself. -/
def form (s : Shape α) : Shape Unit := s.map fun _ => ()

@[simp] theorem form_map (f : α → β) (s : Shape α) : (s.map f).form = s.form := map_map ..

theorem map_id (s : Shape α) : s.map id = s := by
  cases s <;> simp [map, Property.map, Signature.map]

theorem kind_form (s : Shape α) : s.form.kind = s.kind := kind_map ..

theorem kind_eq {s : Shape α} {t : Shape β} (h : s.form = t.form) : s.kind = t.kind := by
  rw [← kind_form s, h, kind_form]

theorem length_children {s : Shape α} {t : Shape β} (h : s.form = t.form) :
    s.children.length = t.children.length := by
  have := congrArg (fun r => r.children.length) h
  simpa only [form, children_map, List.length_map] using this

theorem eq_atom_of_map {f : α → β} {s : Shape α} {a : Atom} (h : s.map f = .atom a) :
    s = .atom a := by
  cases s with
  | atom a' => exact congrArg _ (Shape.atom.inj h)
  | _ => cases h

theorem props_ext {ps qs : List (Property α)}
    (hf : ps.map (·.map fun _ => ()) = qs.map (·.map fun _ => ()))
    (hv : ps.map (·.value) = qs.map (·.value)) : ps = qs := by
  induction ps generalizing qs with
  | nil => exact (List.map_eq_nil_iff.mp hf.symm).symm
  | cons p ps ih =>
    cases qs with
    | nil => exact absurd hv (List.cons_ne_nil _ _)
    | cons q qs =>
      obtain ⟨hp, hps⟩ := List.cons_eq_cons.mp hf
      obtain ⟨hv, hvs⟩ := List.cons_eq_cons.mp hv
      obtain ⟨name, optional, value⟩ := p
      obtain ⟨name', optional', value'⟩ := q
      simp only [Property.map, Property.mk.injEq, and_true] at hp
      obtain ⟨rfl, rfl⟩ := hp
      obtain rfl : value = value' := hv
      rw [ih hps hvs]

/-- A layer is its form and its nested values. -/
theorem ext_children {s t : Shape α} (hf : s.form = t.form) (hc : s.children = t.children) :
    s = t := by
  cases s <;> cases t <;>
    simp only [form, map, children, Signature.map, Shape.atom.injEq, Shape.literal.injEq,
      Shape.group.injEq, Shape.index.injEq, Shape.object.injEq, Shape.objectWithIndex.injEq,
      Signature.mk.injEq, List.cons.injEq, and_true, reduceCtorEq] at hf hc ⊢
  case atom => exact hf
  case literal => exact hf
  case group => exact ⟨hf.1, hc⟩
  case array => exact congrArg _ hc
  case index s t =>
    obtain ⟨key, value⟩ := s
    obtain ⟨key', value'⟩ := t
    exact Signature.mk.injEq .. ▸ ⟨hf, hc⟩
  case object => exact props_ext hf hc
  case objectWithIndex ps s qs t =>
    obtain ⟨key, value⟩ := s
    obtain ⟨key', value'⟩ := t
    obtain ⟨hps, hkey⟩ := hf
    obtain ⟨hv, hs⟩ := List.append_inj' hc rfl
    obtain rfl : key = key' := hkey
    obtain rfl : value = value' := (List.cons_eq_cons.mp hs).1
    exact ⟨props_ext hps hv, rfl⟩

/-! ## Maps with a state -/

theorem props_mapAccum (f : α → σ → β × σ) (ps : List (Property α)) (st : σ) :
    (TypeGraph.mapAccum (Property.mapAccum f) ps st).1.map (·.map fun _ => ()) =
        ps.map (·.map fun _ => ()) ∧
      (TypeGraph.mapAccum (Property.mapAccum f) ps st).1.map (·.value) =
        (TypeGraph.mapAccum f (ps.map (·.value)) st).1 ∧
      (TypeGraph.mapAccum (Property.mapAccum f) ps st).2 =
        (TypeGraph.mapAccum f (ps.map (·.value)) st).2 := by
  induction ps generalizing st with
  | nil => exact ⟨rfl, rfl, rfl⟩
  | cons p ps ih =>
    obtain ⟨hf, hv, hs⟩ := ih (f p.value st).2
    simp only [List.map_cons, mapAccum_cons]
    exact ⟨congrArg _ hf, congrArg _ hv, hs⟩

theorem mapAccum_append (f : α → σ → β × σ) (as bs : List α) (st : σ) :
    TypeGraph.mapAccum f (as ++ bs) st =
      ((TypeGraph.mapAccum f as st).1 ++
          (TypeGraph.mapAccum f bs (TypeGraph.mapAccum f as st).2).1,
        (TypeGraph.mapAccum f bs (TypeGraph.mapAccum f as st).2).2) := by
  induction as generalizing st with
  | nil => rfl
  | cons a as ih => simp only [List.cons_append, mapAccum_cons, ih]

@[simp] theorem form_mapAccum (f : α → σ → β × σ) (s : Shape α) (st : σ) :
    (s.mapAccum f st).1.form = s.form := by
  cases s with
  | atom a => rfl
  | literal l => rfl
  | group g ms =>
    exact congrArg (Shape.group g)
      (TypeGraph.map_mapAccum (p := fun _ => ()) (q := fun _ => ()) (fun _ _ _ => rfl) st)
  | array e => rfl
  | index s => rfl
  | object ps => exact congrArg Shape.object (props_mapAccum f ps st).1
  | objectWithIndex ps s =>
    exact congrArg (Shape.objectWithIndex · _) (props_mapAccum f ps st).1

theorem children_mapAccum (f : α → σ → β × σ) (s : Shape α) (st : σ) :
    (s.mapAccum f st).1.children = (TypeGraph.mapAccum f s.children st).1 := by
  cases s with
  | object ps => exact (props_mapAccum f ps st).2.1
  | objectWithIndex ps s =>
    obtain ⟨-, hv, hs⟩ := props_mapAccum f ps st
    simp only [children, mapAccum, Signature.mapAccum, mapAccum_append, hv, hs]
    rfl
  | _ => rfl

theorem state_mapAccum (f : α → σ → β × σ) (s : Shape α) (st : σ) :
    (s.mapAccum f st).2 = (TypeGraph.mapAccum f s.children st).2 := by
  cases s with
  | object ps => exact (props_mapAccum f ps st).2.2
  | objectWithIndex ps s =>
    obtain ⟨-, -, hs⟩ := props_mapAccum f ps st
    simp only [children, mapAccum, Signature.mapAccum, mapAccum_append, hs]
    rfl
  | _ => rfl

/-- Two layers of one form, gone through by two maps whose states stay related: the results are
the same if they are for the nested values. -/
theorem mapAccum_eq {f : α → σ → β × σ} {g : α' → τ → β × τ} {s : Shape α}
    {t : Shape α'} {st : σ} {tt : τ} (hf : s.form = t.form)
    (hc : (TypeGraph.mapAccum f s.children st).1 = (TypeGraph.mapAccum g t.children tt).1) :
    (s.mapAccum f st).1 = (t.mapAccum g tt).1 :=
  ext_children (by rw [form_mapAccum, form_mapAccum, hf])
    (by rwa [children_mapAccum, children_mapAccum])

theorem mapAccum_congr {f g : α → σ → β × σ} {s : Shape α} {st : σ}
    (h : TypeGraph.mapAccum f s.children st = TypeGraph.mapAccum g s.children st) :
    s.mapAccum f st = s.mapAccum g st :=
  Prod.ext (mapAccum_eq rfl (congrArg Prod.fst h)) (by rw [state_mapAccum, state_mapAccum, h])

theorem mapAccum_map (f : α → σ → β × σ) (k : α' → α) (s : Shape α') (st : σ) :
    (s.map k).mapAccum f st = s.mapAccum (fun a => f (k a)) st := by
  have h : TypeGraph.mapAccum f (s.map k).children st =
      TypeGraph.mapAccum (fun a => f (k a)) s.children st := by
    rw [children_map, TypeGraph.mapAccum_map]
  exact Prod.ext (mapAccum_eq (form_map ..) (by rw [h]))
    (by rw [state_mapAccum, state_mapAccum, h])

/-- Two maps whose states stay related give the same layer. -/
theorem mapAccum_sim {R : σ → τ → Prop} {f : α → σ → β × σ} {g : α → τ → β × τ} {s : Shape α}
    (step : ∀ a ∈ s.children, ∀ st tt, R st tt → (f a st).1 = (g a tt).1 ∧ R (f a st).2 (g a tt).2)
    {st : σ} {tt : τ} (h : R st tt) :
    (s.mapAccum f st).1 = (s.mapAccum g tt).1 ∧ R (s.mapAccum f st).2 (s.mapAccum g tt).2 := by
  obtain ⟨e, hR⟩ := TypeGraph.mapAccum_sim step h
  rw [state_mapAccum, state_mapAccum]
  exact ⟨mapAccum_eq rfl e, hR⟩

/-- Two maps that go through the same states give layers that correspond. -/
theorem mapAccum_eq_map {f : α → σ → β × σ} {g : α → σ → γ × σ} {p : β → γ} {s : Shape α}
    (h : ∀ a ∈ s.children, ∀ st, g a st = (p (f a st).1, (f a st).2)) (st : σ) :
    s.mapAccum g st = ((s.mapAccum f st).1.map p, (s.mapAccum f st).2) := by
  have hc := TypeGraph.mapAccum_eq_map h st
  refine Prod.ext (ext_children (by simp) ?_) ?_
  · rw [children_mapAccum, hc, children_map, children_mapAccum]
  · rw [state_mapAccum, hc, state_mapAccum]

/-- A map that keeps a log goes through the states of a map without one, and logs what that gives
for the nested values. -/
theorem mapAccum_log {f : α → σ → β × σ} {g : α → σ × List τ → γ × σ × List τ} {p : β → γ}
    {q : β → List τ} {s : Shape α}
    (h : ∀ a ∈ s.children, ∀ st log,
      g a (st, log) = (p (f a st).1, (f a st).2, log ++ q (f a st).1)) (st : σ) (log : List τ) :
    s.mapAccum g (st, log) =
      ((s.mapAccum f st).1.map p, (s.mapAccum f st).2,
        log ++ (s.mapAccum f st).1.children.flatMap q) := by
  have hc := TypeGraph.mapAccum_log h st log
  refine Prod.ext (ext_children (by simp) ?_) ?_
  · rw [children_mapAccum, hc, children_map, children_mapAccum]
  · rw [state_mapAccum, hc, state_mapAccum, children_mapAccum]

/-- What a map with a state keeps of each nested value, it keeps of the layer. -/
theorem map_mapAccum {f : α → σ → β × σ} {p : β → γ} {q : α → γ} {s : Shape α}
    (h : ∀ a ∈ s.children, ∀ st, p (f a st).1 = q a) (st : σ) :
    (s.mapAccum f st).1.map p = s.map q :=
  ext_children (by simp)
    (by rw [children_map, children_map, children_mapAccum, TypeGraph.map_mapAccum h])

/-- A map that makes no use of its state. -/
theorem mapAccum_pure {f : α → σ → β × σ} {p : α → β} {s : Shape α}
    (h : ∀ a ∈ s.children, ∀ st, f a st = (p a, st)) (st : σ) :
    s.mapAccum f st = (s.map p, st) := by
  refine Prod.ext ?_ ?_
  · rw [← map_id (s.mapAccum f st).1]
    exact map_mapAccum (fun a ha st => by rw [h a ha, id]) st
  · rw [state_mapAccum]
    exact mapAccum_inv (I := (· = st)) (fun a ha st' hst => by rwa [h a ha]) rfl

end Shape

end TypeGraph
