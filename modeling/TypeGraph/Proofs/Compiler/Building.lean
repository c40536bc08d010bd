import TypeGraph.Proofs.Arena.Size
import TypeGraph.Proofs.Compiler.Limits
import TypeGraph.Proofs.Model.Depth
import TypeGraph.Proofs.Model.Origin

/-!
# Compiling what was built

A type that was built for a model is compiled to that model (`Model.compile_build`). The types in a
type were made before it (`Arena.Stands`), so that none is met again on its own path, although
equal literals are one type.
-/

namespace TypeGraph

universe u v

variable {H : Type u} {G : Type v}

/-- A model with more than a number of levels is higher. -/
theorem Model.Exceeds.lt_height {levels : ℕ} {m : Model H} (h : m.Exceeds levels) :
    levels < m.height := by
  induction levels generalizing m with
  | zero => exact m.height_pos
  | succ levels ih =>
    obtain ⟨c, hc, hx⟩ := exceeds_succ.mp h
    exact Nat.lt_of_le_of_lt (ih hx) (height_lt hc)

/-- Below handles of types that were made later, a type unfolds to the model it stands for. -/
theorem Arena.Stands.unfoldTo {a : Arena} (ha : new.Grows a) (hn : a.Numbered)
    (recordOrigin : Bool) {m : Model H} {n room : ℕ} {path : List TypeId} (h : a.Stands m n)
    (hr : m.height ≤ room) (hp : ∀ id ∈ path, n < id.index.toNat) :
    ((a.engine.unfoldTo recordOrigin room (some path) (.ofNumber n)).detach : Model G) =
      m.detach := by
  induction m using Model.induction generalizing n room path with
  | mk s o ih =>
    obtain ⟨entry, t, ns, he, ht, hf, hc, hs⟩ := stands_iff.mp h
    have hid : (TypeId.ofNumber n).index.toNat = n :=
      UInt32.toNat_ofNat_of_lt' (Nat.lt_of_lt_of_le h.lt_size hn.1)
    have hmem : TypeId.ofNumber n ∉ path := fun hm => by
      have := hp _ hm
      omega
    cases room with
    | zero => exact absurd hr (Nat.not_le_of_lt (Model.height_pos _))
    | succ room =>
      rw [Engine.unfoldTo_succ _ _ hmem, ht.classify ha hn he, Model.detach_eq, Model.detach_eq]
      refine congrArg (Model.mk · none) (Shape.ext_children ?_ ?_)
      · rw [Shape.form_map, Shape.form_map, Shape.form_map, hf]
      · -- the children are unfolded below one more handle, which was made later than they were
        rw [Shape.children_map, Shape.children_map, Shape.children_map, hc, List.map_map,
          List.map_map, eq_comm, ← List.forall₂_eq_eq_eq, List.forall₂_map_left_iff,
          List.forall₂_map_right_iff]
        refine ((List.forall₂_and_left _ _).mpr ⟨fun c hc => hc, hs⟩).imp ?_
        rintro c k ⟨hc, hk, hlt⟩
        have hheight : c.height < (⟨s, o⟩ : Model H).height := Model.height_lt hc
        refine (ih c hc hk (by omega) ?_).symm
        intro id hm
        obtain rfl | hm := List.mem_cons.mp hm
        · omega
        · exact hlt.trans (hp id hm)

/-- A model without `index`, `recursive` and empty tuples that has at most 500 levels and a million
models: what is built for it in an arena made without `define` is compiled to a model that says
the same, and no limit is met. Handles are words of 32 bits, and there must be one for every type
and symbol; that is so if there is room for one more of each for every model
(`Arena.numbered_build`). -/
theorem Model.compile_build (plan : Plan) {commands : List Arena.Command}
    (hdefine : ∀ id shapeOf, .define id shapeOf ∉ commands) {m : Model H}
    (hindex : m.containsKind .index = false)
    (hrecursive : m.containsKind (.atom .recursive) = false)
    (htuple : ∀ x ∈ m.preorder, x.kind = .group .tuple → x.children ≠ []) (hheight : m.height ≤ 500)
    (hcount : m.nodeCount ≤ 1000000) {id : TypeId} {a : Arena}
    (hbuild : m.build plan (Arena.new.run commands) = (id, a)) (ha : a.Numbered) :
    ∃ m' : Model TypeId, Options.standard.compile a.engine id = (m', false) ∧
      (m'.detach : Model H) = m.detach := by
  simp only [← Bool.not_eq_true, containsKind_iff, not_exists, not_and] at hindex hrecursive
  have hm : ∀ x ∈ m.preorder, x.shape.hasBuilder := fun x hx =>
    Shape.hasBuilder_of_kind (hindex x hx) (hrecursive x hx) (htuple x hx)
  have hrun := Arena.new.grows_run hdefine
  obtain ⟨hg, n, hid, hs⟩ := Arena.stands_build plan hm hrun
  rw [hbuild] at hg hid hs
  obtain rfl : id = .ofNumber n := hid
  let m' := a.engine.unfoldTo true 500 (some []) (.ofNumber n)
  have hdetach : (m'.detach : Model H) = m.detach :=
    hs.unfoldTo (hrun.trans hg) ha true hheight nofun
  -- what is unfolded has as many models and levels as the model that was built
  have hsize : m'.size = m.size := by
    rw [← size_filterMapOrigin (fun _ => (none : Option H)) m', ← detach, hdetach, detach,
      size_filterMapOrigin]
  have hlevels : ¬ m'.Exceeds 500 := by
    rw [← exceeds_filterMapOrigin (fun _ => (none : Option H)), ← detach, hdetach, detach,
      exceeds_filterMapOrigin]
    exact fun hx => Nat.not_lt_of_le hheight hx.lt_height
  have hbudget : (m'.size : ℕ∞) ≤ Options.standard.budget := by
    rw [budget_of_lt (by decide), Nat.cast_le, hsize, ← nodeCount_eq]
    exact hcount
  have hmodel : (Options.standard.compile a.engine (.ofNumber n)).1 = m' := by
    rw [Options.compile_model]
    exact keepFirst_of_le hbudget
  refine ⟨m', Prod.ext hmodel ?_, hdetach⟩
  rw [← Bool.not_eq_true, Options.limitExceeded_iff, hmodel, not_or, not_lt]
  exact ⟨hbudget, hlevels⟩

/-- An object type with a property of a literal type and an optional one of arrays of it. -/
def Model.literalAndArray (l : Literal) : Model Empty :=
  .ofShape (.object [⟨"a", false, .ofLiteral l⟩, ⟨"b", true, .array (.ofLiteral l)⟩])

theorem Model.compile_build_literalAndArray :
    let m := literalAndArray (.string "x")
    let made := m.build ⟨false, fun _ value => value⟩ (Arena.new.run [.typeParameter])
    made.2.Numbered ∧
      ∃ m' : Model TypeId, Options.standard.compile made.2.engine made.1 = (m', false) ∧
        (m'.detach : Model Empty) = m.detach := by
  intro m made
  have ha : made.2.Numbered := Arena.numbered_build _ (by decide) (by decide)
  have hdefine (id shapeOf : TypeId) :
      Arena.Command.define id shapeOf ∉ [Arena.Command.typeParameter] := by
    rw [List.mem_singleton]
    exact nofun
  refine ⟨ha, compile_build _ hdefine ?_ ?_ (by decide) (by decide) ?_ rfl ha⟩
  · simp only [← Bool.not_eq_true, containsKind_iff]
    decide
  · simp only [← Bool.not_eq_true, containsKind_iff]
    decide
  · rw [nodeCount_eq]
    decide

end TypeGraph
