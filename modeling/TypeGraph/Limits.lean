/-!
# Limits

The bounds on one compilation, unless options say otherwise.
-/

namespace TypeGraph

/-- How deep models nest at most. -/
def maxModelDepth : UInt32 := 500

/-- How many models are made at most. -/
def maxModelNodes : UInt32 := 1000000

/-- How many handles are remembered at most while cycles are looked for. -/
def maxVisitingHandles : UInt32 := 10000

/-- The largest number of 32 bits. -/
def maxWord : UInt32 := 4294967295

/-- The bounds that a guard enforces. -/
structure Limits where
  /-- the longest path -/
  maxDepth : UInt32
  /-- the most steps between two resets -/
  maxNodes : UInt32
  deriving DecidableEq, Repr

/-- The bounds unless options say otherwise. -/
def Limits.standard : Limits := ⟨maxModelDepth, maxModelNodes⟩

end TypeGraph
