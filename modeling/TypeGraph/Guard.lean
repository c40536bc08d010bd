import TypeGraph.Limits

/-!
# The guard of a path

A compilation goes down paths of handles in a graph that may loop. A `Guard` stands before every
step: it knows the handles on the path, how long the path is and how many steps were asked for,
and says whether the step may be taken.

* `Guard.enter` asks for a step, `Guard.leave` takes an allowed one back;
* `Guard.reset` starts over.
-/

namespace TypeGraph

universe u

/-- What a guard says about a step. -/
inductive Step where
  /-- the handle is on the path now -/
  | entered
  /-- the handle was on the path already -/
  | revisit
  /-- the path is as long as it may be -/
  | tooDeep
  /-- no more steps are allowed -/
  | outOfBudget
  deriving DecidableEq, Repr

/-- Whether a step is refused for a limit. -/
def Step.isLimit : Step → Bool
  | tooDeep | outOfBudget => true
  | _ => false

/-- A guard of paths of handles. -/
structure Guard (K : Type u) where
  /-- the handles on the path, the last one first, or `none` where they are not remembered -/
  path : Option (List K)
  /-- the length of the path -/
  depth : Nat
  /-- the steps asked for since the last reset, up to the largest number of 32 bits -/
  nodes : Nat
  limits : Limits
  /-- whether a step was refused for a limit since the last reset -/
  hitLimit : Bool
  deriving Repr

namespace Guard

variable {K : Type u}

/-- A guard that remembers the handles on the path. -/
def tracking (limits : Limits) : Guard K := ⟨some [], 0, 0, limits, false⟩

/-- A guard that only counts. -/
def depthOnly (limits : Limits) : Guard K := ⟨none, 0, 0, limits, false⟩

/-- Whether the handles on the path are remembered. -/
def tracksPath (g : Guard K) : Bool := g.path.isSome

/-- The longest path allowed. A guard that remembers the path has a limit of its own. -/
def maxDepth (g : Guard K) : Nat :=
  if g.tracksPath then min g.limits.maxDepth.toNat maxVisitingHandles.toNat
  else g.limits.maxDepth.toNat

/-- Whether a handle is known to be on the path. -/
def isOnPath [DecidableEq K] (g : Guard K) (k : K) : Bool := (g.path.getD []).contains k

/-- Counts a step, unless the counter is at its end. -/
def count (g : Guard K) : Guard K := { g with nodes := min (g.nodes + 1) maxWord.toNat }

/-- Asks to step to a handle. -/
def enter [DecidableEq K] (g : Guard K) (k : K) : Step × Guard K :=
  let g := g.count
  if g.limits.maxNodes.toNat < g.nodes then (.outOfBudget, { g with hitLimit := true })
  else if g.isOnPath k then (.revisit, g)
  else if g.maxDepth ≤ g.depth then (.tooDeep, { g with hitLimit := true })
  else (.entered, { g with path := g.path.map (k :: ·), depth := g.depth + 1 })

/-- Takes an allowed step back. -/
def leave [DecidableEq K] (g : Guard K) (k : K) : Guard K :=
  { g with path := g.path.map (·.erase k), depth := g.depth - 1 }

/-- Starts over, with an empty path and all steps to come. -/
def reset (g : Guard K) : Guard K := ⟨g.path.map fun _ => [], 0, 0, g.limits, false⟩

end Guard

end TypeGraph
