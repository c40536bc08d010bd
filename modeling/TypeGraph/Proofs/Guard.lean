import TypeGraph.Guard
import Mathlib.Data.ENat.Basic

/-!
# What a guard allows

A guard answers by three things: what is left of its steps (`Guard.budget`), the handles on its path
and the length of the path (`enter_eq`). A step uses up one of the budget (`budget_count`), and
`leave` after an allowed step restores the path (`SamePath`).
-/

namespace TypeGraph

universe u

variable {K : Type u}

namespace Guard

/-- The steps still allowed. The counter ends at the largest number of 32 bits, so that a limit of
that many steps is none. -/
def budget (g : Guard K) : ℕ∞ :=
  if g.limits.maxNodes = maxWord then ⊤ else (g.limits.maxNodes.toNat - g.nodes : ℕ)

/-- Two guards with one path and one pair of limits; they may have counted differently. -/
structure SamePath (g g' : Guard K) : Prop where
  path : g'.path = g.path
  depth : g'.depth = g.depth
  limits : g'.limits = g.limits

namespace SamePath

variable {g g' g'' : Guard K}

theorem refl (g : Guard K) : SamePath g g := ⟨rfl, rfl, rfl⟩

theorem trans (h : SamePath g g') (h' : SamePath g' g'') : SamePath g g'' :=
  ⟨h'.path.trans h.path, h'.depth.trans h.depth, h'.limits.trans h.limits⟩

theorem maxDepth (h : SamePath g g') : g'.maxDepth = g.maxDepth := by
  rw [Guard.maxDepth, Guard.maxDepth, tracksPath, tracksPath, h.path, h.limits]

theorem reset_eq (h : SamePath g g') : g'.reset = g.reset := by
  rw [reset, reset, h.path, h.limits]

end SamePath

theorem toNat_lt_maxWord {w : UInt32} (h : w ≠ maxWord) : w.toNat < maxWord.toNat := by
  have hw := w.toNat_lt
  have hm : maxWord.toNat = 4294967295 := rfl
  have : w.toNat ≠ maxWord.toNat := fun e => h (UInt32.toNat_inj.mp e)
  omega

@[simp] theorem nodes_count (g : Guard K) : g.count.nodes = min (g.nodes + 1) maxWord.toNat := rfl

@[simp] theorem limits_count (g : Guard K) : g.count.limits = g.limits := rfl

/-- A step uses up one of the budget. -/
theorem budget_count (g : Guard K) : g.count.budget = g.budget - 1 := by
  rw [budget, budget, limits_count]
  by_cases h : g.limits.maxNodes = maxWord
  · rw [if_pos h, if_pos h]
    rfl
  · have := toNat_lt_maxWord h
    have e : g.limits.maxNodes.toNat - min (g.nodes + 1) maxWord.toNat =
        g.limits.maxNodes.toNat - g.nodes - 1 := by omega
    rw [if_neg h, if_neg h, nodes_count, e]
    exact ENat.natCast_sub _ 1

/-- The counter passes the limit exactly if no step was left. -/
theorem lt_nodes_count_iff (g : Guard K) :
    g.limits.maxNodes.toNat < g.count.nodes ↔ g.budget = 0 := by
  rw [budget, nodes_count]
  by_cases h : g.limits.maxNodes = maxWord
  · rw [if_pos h, h]
    exact iff_of_false (by simp) ENat.top_ne_zero
  · have := toNat_lt_maxWord h
    rw [if_neg h, Nat.cast_eq_zero]
    simp only [Nat.lt_min]
    omega

/-- The guard after an allowed step. -/
def step (g : Guard K) (k : K) : Guard K :=
  { g.count with path := g.path.map (k :: ·), depth := g.depth + 1 }

/-- The guard after a step that was refused for a limit. -/
def refuse (g : Guard K) : Guard K := { g.count with hitLimit := true }

theorem depth_step (g : Guard K) (k : K) : (g.step k).depth = g.depth + 1 := rfl

theorem maxDepth_step (g : Guard K) (k : K) : (g.step k).maxDepth = g.maxDepth := by
  rw [maxDepth, maxDepth, tracksPath, tracksPath, step, Option.isSome_map]
  rfl

theorem budget_step (g : Guard K) (k : K) : (g.step k).budget = g.budget - 1 := budget_count g

theorem budget_refuse (g : Guard K) : g.refuse.budget = g.budget - 1 := budget_count g

theorem samePath_count (g : Guard K) : SamePath g g.count := ⟨rfl, rfl, rfl⟩

theorem samePath_refuse (g : Guard K) : SamePath g g.refuse := ⟨rfl, rfl, rfl⟩

variable [DecidableEq K]

theorem isOnPath_iff {g : Guard K} {k : K} : g.isOnPath k = true ↔ k ∈ g.path.getD [] :=
  List.contains_iff_mem ..

/-- What a guard says about a step. -/
theorem enter_eq (g : Guard K) (k : K) :
    g.enter k =
      if g.budget = 0 then (.outOfBudget, g.refuse)
      else if k ∈ g.path.getD [] then (.revisit, g.count)
      else if g.maxDepth ≤ g.depth then (.tooDeep, g.refuse)
      else (.entered, g.step k) := by
  have hb : (g.count.limits.maxNodes.toNat < g.count.nodes) = (g.budget = 0) :=
    propext (lt_nodes_count_iff g)
  have hp : (g.count.isOnPath k = true) = (k ∈ g.path.getD []) := propext isOnPath_iff
  rw [enter]
  simp only [hb, hp]
  rfl

/-- Within the budget the path and its length decide. -/
theorem answer_eq {g : Guard K} {k : K} (h : (g.enter k).1 ≠ .outOfBudget) :
    (g.enter k).1 =
      if k ∈ g.path.getD [] then .revisit
      else if g.maxDepth ≤ g.depth then .tooDeep
      else .entered := by
  rw [enter_eq] at h ⊢
  by_cases hb : g.budget = 0
  · rw [if_pos hb] at h
    exact absurd rfl h
  · rw [if_neg hb]
    simp only [apply_ite Prod.fst]

theorem entered_iff {g : Guard K} {k : K} :
    (g.enter k).1 = .entered ↔ g.budget ≠ 0 ∧ k ∉ g.path.getD [] ∧ g.depth < g.maxDepth := by
  rw [enter_eq]
  split_ifs <;> simp_all

theorem tooDeep_iff {g : Guard K} {k : K} :
    (g.enter k).1 = .tooDeep ↔ g.budget ≠ 0 ∧ k ∉ g.path.getD [] ∧ g.maxDepth ≤ g.depth := by
  rw [enter_eq]
  split_ifs <;> simp_all

/-- An allowed step goes down the path. -/
theorem enter_of_entered {g : Guard K} {k : K} (h : (g.enter k).1 = .entered) :
    g.enter k = (.entered, g.step k) := by
  obtain ⟨hb, hp, hd⟩ := entered_iff.mp h
  rw [enter_eq, if_neg hb, if_neg hp, if_neg (not_le.mpr hd)]

/-- A step that is not allowed leaves the path as it is. -/
theorem samePath_enter {g : Guard K} {k : K} (h : (g.enter k).1 ≠ .entered) :
    g.SamePath (g.enter k).2 := by
  rw [enter_eq] at h ⊢
  split_ifs at h ⊢
  · exact g.samePath_refuse
  · exact g.samePath_count
  · exact g.samePath_refuse
  · exact absurd rfl h

/-- Every step asked for is counted, up to the largest number of 32 bits. -/
theorem nodes_enter (g : Guard K) (k : K) :
    (g.enter k).2.nodes = min (g.nodes + 1) maxWord.toNat := by
  rw [enter_eq]
  split_ifs <;> rfl

/-- Only a step that is refused for a limit changes what is known of limits. -/
theorem hitLimit_enter (g : Guard K) (k : K) :
    (g.enter k).2.hitLimit = (g.hitLimit || (g.enter k).1.isLimit) := by
  rw [enter_eq]
  split_ifs
  · exact (Bool.or_true _).symm
  · exact (Bool.or_false _).symm
  · exact (Bool.or_true _).symm
  · exact (Bool.or_false _).symm

theorem budget_leave (g : Guard K) (k : K) : (g.leave k).budget = g.budget := rfl

theorem depth_leave (g : Guard K) (k : K) : (g.leave k).depth = g.depth - 1 := rfl

theorem maxDepth_leave (g : Guard K) (k : K) : (g.leave k).maxDepth = g.maxDepth := by
  rw [maxDepth, maxDepth, tracksPath, tracksPath, leave, Option.isSome_map]

/-- Taking an allowed step back restores the path. -/
theorem samePath_leave {g g' : Guard K} {k : K} (h : SamePath (g.step k) g') :
    SamePath g (g'.leave k) := by
  refine ⟨?_, ?_, h.limits⟩
  · rw [leave, h.path, step]
    cases g.path with
    | none => rfl
    | some path => exact congrArg some (List.erase_cons_head ..)
  · rw [leave, h.depth]
    rfl

end Guard

end TypeGraph
