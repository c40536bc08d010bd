import TypeGraph.Proofs.Arena.Growth
import TypeGraph.Proofs.Engine.Renaming
import Mathlib.Data.Set.Defs

/-!
# What a run leaves as it is

Commands keep the entries of all symbols and of all types that they give no other entry
(`Arena.keeps_run`). A type that is kept has the same answers and the same layer afterwards, if the
symbols in it were there before (`Arena.Keeps.classify`): what is asked about a symbol that is not
there is answered otherwise once there is one.
-/

namespace TypeGraph

universe u

namespace Arena

variable {a b c : Arena} {T : Set TypeId}

/-- The types of a set that are there, and all symbols, have the same entries in another arena. -/
structure Keeps (a : Arena) (T : Set TypeId) (b : Arena) : Prop where
  types {id : TypeId} {entry : TypeEntry} :
    id ∈ T → a.type? id = some entry → b.type? id = some entry
  symbols {s : SymbolId} {entry : SymbolEntry} : a.symbol? s = some entry → b.symbol? s = some entry

theorem Keeps.refl (a : Arena) (T : Set TypeId) : a.Keeps T a := ⟨fun _ => id, id⟩

theorem Keeps.trans (hab : a.Keeps T b) (hbc : b.Keeps T c) : a.Keeps T c :=
  ⟨fun hid h => hbc.types hid (hab.types hid h), fun h => hbc.symbols (hab.symbols h)⟩

theorem Grows.keeps (h : a.Grows b) (T : Set TypeId) : a.Keeps T b := ⟨fun _ => h.types, h.symbols⟩

theorem keeps_put {id : TypeId} (hid : (a.type? id).isSome) (entry : TypeEntry) (hT : id ∉ T) :
    a.Keeps T (a.put id entry) where
  types hk h := by
    rw [type?_put hid, if_neg (ne_of_mem_of_not_mem hk hT), h]
  symbols h := h

/-- A command keeps the types of a set if it gives an entry to none of them. -/
theorem keeps_apply {command : Command} (h : ∀ d ∈ a.defines command, d.1 ∉ T) :
    a.Keeps T (a.apply command).2 := by
  cases hd : a.defines command with
  | none => exact (a.grows_apply hd).keeps T
  | some d =>
    obtain ⟨hid, hput⟩ := apply_of_defines hd
    rw [hput]
    exact keeps_put hid d.2 (h d hd)

/-- A run keeps the types of a set if its commands give an entry to none of them. -/
theorem keeps_run {commands : List Command} (h : ∀ d ∈ a.definitions commands, d.1 ∉ T) :
    a.Keeps T (a.run commands) := by
  induction commands generalizing a with
  | nil => exact .refl a T
  | cons command commands ih =>
    rw [definitions, List.forall_mem_append] at h
    obtain ⟨hfirst, hrest⟩ := h
    have hstep : a.Keeps T (a.apply command).2 :=
      keeps_apply fun d hd => hfirst d (Option.mem_toList.mpr hd)
    exact hstep.trans (ih hrest)

/-! ## Answers -/

/-- A type is there, and so are the symbols in it. -/
structure Known (a : Arena) (id : TypeId) : Prop where
  type : (a.type? id).isSome
  symbols : ∀ s, s ∈ a.engine.properties id ∨ a.engine.typeSymbol id = some s →
    (a.symbol? s).isSome

theorem Known.exists_entry {id : TypeId} (h : a.Known id) : ∃ entry, a.type? id = some entry :=
  Option.isSome_iff_exists.mp h.type

section

variable {id : TypeId} (h : a.Keeps T b) (hknown : a.Known id)

include h hknown

theorem Keeps.type?_eq (hid : id ∈ T) : b.type? id = a.type? id := by
  obtain ⟨entry, he⟩ := hknown.exists_entry
  rw [he, h.types hid he]

theorem Keeps.symbol?_eq {s : SymbolId}
    (hs : s ∈ a.engine.properties id ∨ a.engine.typeSymbol id = some s) :
    b.symbol? s = a.symbol? s := by
  obtain ⟨entry, he⟩ := Option.isSome_iff_exists.mp (hknown.symbols s hs)
  rw [he, h.symbols he]

/-- The answers about a type that is kept stay the same. -/
theorem Keeps.renames (hid : id ∈ T) : a.engine.Renames b.engine (fun k => k) id := by
  have ht : b.type? id = a.type? id := h.type?_eq hknown hid
  have hf : b.form? id = a.form? id := by rw [form?, ht, form?]
  have hsymbol : b.engine.typeSymbol id = a.engine.typeSymbol id := by simp only [engine, hf]
  have hproperties : b.engine.properties id = a.engine.properties id := by simp only [engine, hf]
  exact
    { typeFlags := fun f _ => by simp only [engine, ht]
      reference := by simp only [engine, ht]
      tuple := by simp only [engine, hf]
      typeArguments := by simp only [engine, hf, List.map_id']
      symbolName := by
        rw [hsymbol]
        refine Option.map_congr fun s hs => ?_
        simp only [engine, h.symbol?_eq hknown (.inr hs)]
      stringLiteral := by simp only [engine, hf]
      numberLiteral := by simp only [engine, hf]
      booleanLiteral := by simp only [engine, hf]
      bigintLiteral := by simp only [engine, hf]
      memberTypes := by simp only [engine, hf, List.map_id']
      properties := by
        rw [hproperties]
        refine List.map_congr_left fun s hs => ?_
        simp only [Engine.property, engine, h.symbol?_eq hknown (.inl hs), Property.map]
      stringIndex := by simp only [engine, hf, Option.map_id']
      numberIndex := by simp only [engine, hf, Option.map_id'] }

/-- A type that is kept has the same layer. -/
theorem Keeps.classify (hid : id ∈ T) : b.engine.classify id = a.engine.classify id := by
  rw [Engine.classify_renames (h.renames hknown hid)]
  exact Shape.map_id _

end

end Arena

end TypeGraph
