import TypeGraph.Model

/-!
# Replacing origins

* `Model.filterMapOriginAccum` asks a function with a state of its own about every origin,
  children before parents and children in document order;
* `Model.filterMapOrigin`, `Model.mapOrigin` and `Model.detach` are the uses that need no state.
-/

namespace TypeGraph

universe u v

variable {H : Type u} {G σ : Type v}

namespace Model

/-- Replaces every origin, threading a state; models without an origin stay without one. -/
def filterMapOriginAccum (f : H → σ → Option G × σ) : Model H → σ → Model G × σ :=
  fold fun m s st =>
    let (shape, st) := s.mapAccum (fun run st => run st) st
    match m.origin with
    | none => (⟨shape, none⟩, st)
    | some h => let (g, st) := f h st; (⟨shape, g⟩, st)

/-- Replaces every origin; `none` clears it. -/
def filterMapOrigin (f : H → Option G) : Model H → Model G :=
  fold fun m s => ⟨s, m.origin.bind f⟩

/-- Replaces every origin. -/
def mapOrigin (f : H → G) : Model H → Model G := filterMapOrigin (some ∘ f)

/-- Clears every origin. -/
def detach : Model H → Model G := filterMapOrigin fun _ => none

end Model

end TypeGraph
