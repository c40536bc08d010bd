import TypeGraph.Proofs.Compiler.Calls

/-!
# Origins are only recorded

Whether origins are recorded makes no difference to a call but for the origins themselves: the guard
answers the same, so that the same models are made in both cases (`Options.compile_noted`).

* `Options.origin_of_record`, `Options.origin_of_omit`: all models have an origin, or none;
* `compile_origins`: what is made without origins is what is made with them, once they are cleared.
-/

namespace TypeGraph

universe u v

variable {H : Type u} {S : Type v}

namespace Options

/-- The guard that a call starts with does not depend on whether origins are recorded. -/
theorem guard_recordOrigin (o : Options) (r : Bool) :
    ({ o with recordOrigin := r }.guard : Guard H) = o.guard := rfl

variable [DecidableEq H] {o : Options} {e : Engine H S} {h : H} {m : Model H}

/-- Each model of a call was made for some type. -/
theorem exists_originOf (hm : m ∈ (o.compile e h).1.preorder) :
    ∃ k, m.origin = originOf o.recordOrigin k := by
  rw [compile_noted, Model.preorder_of_children (Model.children_filterMapOrigin _),
    List.mem_map] at hm
  obtain ⟨x, hx, rfl⟩ := hm
  obtain ⟨note, hnote⟩ := exists_note e hx
  exact ⟨note.1, by rw [Model.filterMapOrigin_eq, hnote, Option.bind_some]⟩

theorem origin_of_record (hr : o.recordOrigin = true) (hm : m ∈ (o.compile e h).1.preorder) :
    m.origin.isSome := by
  obtain ⟨k, ho⟩ := exists_originOf hm
  rw [ho, hr]
  rfl

theorem origin_of_omit (hr : o.recordOrigin = false) (hm : m ∈ (o.compile e h).1.preorder) :
    m.origin = none := by
  obtain ⟨k, ho⟩ := exists_originOf hm
  rw [ho, hr]
  rfl

end Options

/-- Whether origins are recorded changes origins and nothing else. -/
theorem compile_origins [DecidableEq H] (o : Options) (e : Engine H S) (h : H) :
    let a := { o with recordOrigin := true }.compile e h
    let b := { o with recordOrigin := false }.compile e h
    (∀ m ∈ a.1.preorder, m.origin.isSome) ∧
    (∀ m ∈ b.1.preorder, m.origin = none) ∧
    b.1 = a.1.filterMapOrigin (fun _ => none) ∧
    a.1.text = b.1.text ∧
    a.2 = b.2 := by
  intro a b
  have cleared : b.1 = a.1.filterMapOrigin fun _ => none := by
    simp only [a, b, Options.compile_noted, Options.guard_recordOrigin]
    rw [Model.filterMapOrigin_filterMapOrigin]
    rfl
  refine ⟨fun m hm => Options.origin_of_record rfl hm, fun m hm => Options.origin_of_omit rfl hm,
    cleared, ?text, ?limit⟩
  case text => rw [cleared, Model.text_filterMapOrigin]
  case limit => simp only [a, b, Options.compile_noted, Options.guard_recordOrigin]

end TypeGraph
