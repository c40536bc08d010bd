import TypeGraph.Proofs.Arena.Interning
import TypeGraph.Proofs.Arena.Layer
import TypeGraph.Proofs.Compiler.Unfolding

/-!
# Compiling interned literals

The type that is handed out for a literal need not be one. It has the flag and the value of the
literal and is compiled to it (`Engine.Means`) exactly if the entry that it was given last has them,
or if it was given none (`Arena.means_literal_iff`). A literal that was overwritten is handed out
again as what it was made (`Arena.not_means_overwritten`).
-/

namespace TypeGraph

universe u v

variable {H : Type u} {S : Type v}

/-! ## Literals that are compiled -/

namespace Options

variable {o : Options}

theorem depthLimit_ne_zero (h : o.maxDepth ≠ some 0) : o.depthLimit ≠ 0 := by
  obtain ⟨policy, recordOrigin, depth, nodes⟩ := o
  cases depth with
  | none => cases policy <;> exact Nat.succ_ne_zero _
  | some d =>
    have hd : d.toNat ≠ 0 := fun hz => h (congrArg some (UInt32.toNat_inj.mp hz))
    have hm : maxVisitingHandles.toNat ≠ 0 := by decide
    cases policy with
    | detect =>
      show min d.toNat maxVisitingHandles.toNat ≠ 0
      omega
    | trust => exact hd

theorem budget_ne_zero (h : o.maxNodes ≠ some 0) : o.budget ≠ 0 := by
  have hn : o.limits.maxNodes.toNat ≠ 0 := by
    obtain ⟨policy, recordOrigin, depth, nodes⟩ := o
    cases nodes with
    | none => exact Nat.succ_ne_zero _
    | some n => exact fun hz => h (congrArg some (UInt32.toNat_inj.mp hz))
  rw [budget]
  split_ifs
  · exact ENat.top_ne_zero
  · exact Nat.cast_ne_zero.mpr hn

/-- A literal is compiled to itself if the limits allow for one model. -/
theorem compile_literal [DecidableEq H] (o : Options) {e : Engine H S} {h : H} {l : Literal}
    (hd : o.maxDepth ≠ some 0) (hn : o.maxNodes ≠ some 0) (hc : e.classify h = .literal l) :
    o.compile e h = (⟨.literal l, originOf o.recordOrigin h⟩, false) := by
  let m : Model H := ⟨.literal l, originOf o.recordOrigin h⟩
  obtain ⟨room, hroom⟩ := Nat.exists_eq_succ_of_ne_zero (depthLimit_ne_zero hd)
  have hpath : h ∉ (o.path : Option (List H)).getD [] := by
    obtain ⟨_ | _, _, _, _⟩ := o <;> exact List.not_mem_nil
  have hsize : (m.size : ℕ∞) ≤ o.budget := by
    rw [Model.size_eq]
    exact Order.one_le_iff_ne_zero.mpr (budget_ne_zero hn)
  have hm : (o.compile e h).1 = m := by
    rw [o.compile_model, hroom, e.unfoldTo_succ _ hpath, hc]
    exact Model.keepFirst_of_le hsize
  refine Prod.ext hm ?_
  rw [← Bool.not_eq_true, o.limitExceeded_iff, hm, hroom, Model.exceeds_succ, not_or, not_lt]
  refine ⟨hsize, ?_⟩
  rintro ⟨c, hc, -⟩
  exact List.not_mem_nil hc

end Options

/-- A type has the flag and the value of a literal, and is compiled to it. -/
structure Engine.Means [DecidableEq H] (e : Engine H S) (h : H) (l : Literal) : Prop where
  flags : e.typeFlags h = .of [l.kind.flag]
  value : e.value? h l.kind = some l
  compile (o : Options) : o.maxDepth ≠ some 0 → o.maxNodes ≠ some 0 →
    o.compile e h = (⟨.literal l, originOf o.recordOrigin h⟩, false)

namespace Arena

variable {a : Arena} {id : TypeId} {entry : TypeEntry} {l : Literal}

/-- An entry has the flag and the structure of a literal. -/
def TypeEntry.Says (entry : TypeEntry) (l : Literal) : Prop :=
  entry.flags = .of [l.kind.flag] ∧ entry.form = .ofLiteral l

theorem form?_of_value? (h : a.engine.value? id l.kind = some l) :
    a.form? id = some (.ofLiteral l) := by
  cases l <;>
  · dsimp only [Engine.value?, Literal.kind, engine] at h
    obtain ⟨value, hv, hl⟩ := Option.map_eq_some_iff.mp h
    obtain ⟨rfl⟩ := hl
    split at hv
    next hf => rw [hf, Option.some.inj hv]; rfl
    next => cases hv

theorem means_iff (h : a.type? id = some entry) : a.engine.Means id l ↔ entry.Says l := by
  have hf : a.form? id = some entry.form := form?_eq h
  constructor
  · intro hm
    have hl := form?_of_value? hm.value
    rw [hf] at hl
    exact ⟨(typeFlags_engine h).symm.trans hm.flags, Option.some.inj hl⟩
  · rintro ⟨hflags, hform⟩
    have hflags : a.engine.typeFlags id = .of [l.kind.flag] := (typeFlags_engine h).trans hflags
    have hvalue : a.engine.value? id l.kind = some l := value?_engine (hform ▸ hf)
    exact ⟨hflags, hvalue, fun o hd hn =>
      o.compile_literal hd hn (Engine.classify_literal hflags hvalue)⟩

theorem says_getD_iff {given : Option TypeEntry} (h : entry.Says l) :
    (given.getD entry).Says l ↔ ∀ entry ∈ given, entry.Says l := by
  cases given with
  | none => exact iff_of_true h fun entry he => absurd he nofun
  | some last =>
    refine ⟨fun hl entry he => ?_, fun hall => hall last rfl⟩
    rw [← Option.some.inj he]
    exact hl

/-- After any commands, the type handed out for a string or a number has the flag and the value of
that literal and is compiled to it exactly if the entry that it was given last has them, which is so
if it was given none. -/
theorem means_literal_iff (commands : List Command) :
    (∀ value : String,
      let made := (new.run commands).stringLiteral value
      made.2.types.size ≤ UInt32.size →
        (made.2.engine.Means made.1 (.string value) ↔
          ∀ entry ∈ lastGiven? (new.definitions commands) made.1, entry.Says (.string value))) ∧
    ∀ value : Double,
      let made := (new.run commands).numberLiteral value
      made.2.types.size ≤ UInt32.size →
        (made.2.engine.Means made.1 (.number value) ↔
          ∀ entry ∈ lastGiven? (new.definitions commands) made.1, entry.Says (.number value)) := by
  constructor
  · intro value made hs
    rw [means_iff (type?_stringLiteral commands value hs)]
    exact says_getD_iff ⟨rfl, rfl⟩
  · intro value made hs
    rw [means_iff (type?_numberLiteral commands value hs)]
    exact says_getD_iff ⟨rfl, rfl⟩

/-! ## A literal that is overwritten -/

/-- Makes a literal and gives it the entry of `string`. -/
def overwriting : List Command := [.stringLiteral "a", .define ⟨14⟩ ⟨2⟩]

theorem stringLiteral_new (value : String) :
    new.stringLiteral value =
      (⟨14⟩, { (new.push (.plain [.stringLiteral] (.string value))).2 with
        strings := new.strings.insert value ⟨14⟩ }) :=
  stringLiteral_of_none Std.HashMap.getElem?_empty

theorem run_overwriting :
    new.run overwriting =
      { (new.push (.plain [.string] .intrinsic)).2 with
        strings := new.strings.insert "a" ⟨14⟩ } := by
  show ((new.stringLiteral "a").2.define ⟨14⟩ ⟨2⟩).2 = _
  rw [stringLiteral_new]
  rfl

theorem definitions_overwriting :
    new.definitions overwriting = [(⟨14⟩, .plain [.string] .intrinsic)] := by
  show ((new.stringLiteral "a").2.defines (.define ⟨14⟩ ⟨2⟩)).toList ++ [] = _
  rw [stringLiteral_new]
  rfl

/-- Other literals are what they should be. -/
theorem means_literal_overwriting :
    let b := (new.run overwriting).stringLiteral "b"
    let zero := (new.run overwriting).numberLiteral ⟨0⟩
    (b.2.types.size ≤ UInt32.size ∧ b.2.engine.Means b.1 (.string "b")) ∧
      zero.2.types.size ≤ UInt32.size ∧ zero.2.engine.Means zero.1 (.number ⟨0⟩) := by
  intro b zero
  obtain ⟨hstring, hnumber⟩ := means_literal_iff overwriting
  have hb : b.1 = ⟨15⟩ ∧ b.2.types.size ≤ UInt32.size := by
    have hnone : (new.run overwriting).strings["b"]? = none := by
      rw [run_overwriting, Std.HashMap.getElem?_insert]
      exact Std.HashMap.getElem?_empty
    show ((new.run overwriting).stringLiteral "b").1 = _ ∧
      ((new.run overwriting).stringLiteral "b").2.types.size ≤ _
    rw [stringLiteral_of_none hnone, run_overwriting]
    decide
  have hzero : zero.1 = ⟨15⟩ ∧ zero.2.types.size ≤ UInt32.size := by
    have hnone : (new.run overwriting).numbers[(0 : UInt64)]? = none := by
      rw [run_overwriting]
      exact Std.HashMap.getElem?_empty
    show ((new.run overwriting).numberLiteral ⟨0⟩).1 = _ ∧
      ((new.run overwriting).numberLiteral ⟨0⟩).2.types.size ≤ _
    rw [numberLiteral_of_none hnone, run_overwriting]
    decide
  -- only the type before these was given an entry
  have hgiven : lastGiven? (new.definitions overwriting) ⟨15⟩ = none := by
    rw [definitions_overwriting]
    rfl
  refine ⟨⟨hb.2, (hstring "b" hb.2).mpr ?_⟩, hzero.2, (hnumber ⟨0⟩ hzero.2).mpr ?_⟩
  · rw [hb.1, hgiven]
    exact nofun
  · rw [hzero.1, hgiven]
    exact nofun

/-- The literal is handed out again as `string`. -/
theorem not_means_overwritten :
    let made := (new.run overwriting).stringLiteral "a"
    made.2.types.size ≤ UInt32.size ∧
      made.2.engine.typeFlags made.1 ≠ .of [.stringLiteral] ∧
      made.2.engine.stringLiteral made.1 ≠ some "a" ∧
      (Options.standard.compile made.2.engine made.1).1.shape ≠ .literal (.string "a") := by
  intro made
  have hmade : made = (⟨14⟩, new.run overwriting) := by
    refine stringLiteral_of_some ?_
    rw [run_overwriting]
    exact Std.HashMap.getElem?_insert_self
  rw [hmade, run_overwriting]
  exact ⟨by decide, by decide, nofun, nofun⟩

end Arena

end TypeGraph
