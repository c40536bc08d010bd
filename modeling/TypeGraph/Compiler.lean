import TypeGraph.Engine
import TypeGraph.Guard
import TypeGraph.Options

/-!
# Compiling types to models

A `Compiler` unfolds the types of an engine to models. Before each type it asks its guard: a type
that repeats on its own path becomes a `recursive` leaf, and one beyond a limit an `unidentified`
one.

* `unfold` makes the model of one type and those nested in it, with a guard in any state;
* `Compiler.compile` starts with a fresh guard, so that earlier calls do not matter;
* `Compiler.limitExceeded` says whether the last call met a limit.
-/

namespace TypeGraph

universe u v

variable {H : Type u} {S : Type v} [DecidableEq H]

/-- The model of a type, and the guard afterwards. The types nested in it are at most `room` levels
below. -/
def unfold (e : Engine H S) (recordOrigin : Bool) : (room : Nat) → H → Guard H → Model H × Guard H
  | room, h, g =>
    let origin := if recordOrigin then some h else none
    match g.enter h with
    | (.entered, g) =>
      match room with
      | 0 => (⟨.atom .unidentified, origin⟩, g.leave h)
      | room + 1 =>
        let (shape, g) := (e.classify h).mapAccum (unfold e recordOrigin room) g
        (⟨shape, origin⟩, g.leave h)
    | (.revisit, g) => (⟨.atom .recursive, origin⟩, g)
    | (.tooDeep, g) | (.outOfBudget, g) => (⟨.atom .unidentified, origin⟩, g)

/-- The model of a type below the path of a guard. -/
def Guard.unfold (g : Guard H) (e : Engine H S) (recordOrigin : Bool) (h : H) :
    Model H × Guard H :=
  TypeGraph.unfold e recordOrigin (g.maxDepth - g.depth) h g

/-- A compiler with its options and its guard. -/
structure Compiler (H : Type u) where
  options : Options
  guard : Guard H

namespace Compiler

/-- A compiler with these options. -/
def ofOptions (o : Options) : Compiler H where
  options := o
  guard :=
    match o.cyclePolicy with
    | .detect => .tracking o.limits
    | .trust => .depthOnly o.limits

/-- Compiles one type. -/
def compile (c : Compiler H) (e : Engine H S) (h : H) : Model H × Compiler H :=
  let (m, g) := c.guard.reset.unfold e c.options.recordOrigin h
  (m, { c with guard := g })

/-- Whether the last call met a limit. -/
def limitExceeded (c : Compiler H) : Bool := c.guard.hitLimit

/-- Compiles types one after the other, and tells of each whether it met a limit. -/
def compileAll (c : Compiler H) (e : Engine H S) : List H → List (Model H × Bool)
  | [] => []
  | h :: hs =>
    let (m, c) := c.compile e h
    (m, c.limitExceeded) :: c.compileAll e hs

end Compiler

end TypeGraph
