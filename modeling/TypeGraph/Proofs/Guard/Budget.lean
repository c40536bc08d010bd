import TypeGraph.Proofs.Guard.History

/-!
# The budget of a guard

A guard refuses a step for its budget exactly if it is one more since the last reset than the limit
says (`Runs.outOfBudget_iff`), so that it grants as many steps and no more (`Runs.granted_eq`).

The counter stops at the largest number of 32 bits and never passes it, so that a limit of that
many steps is none: after as many requests the next one is not refused for the budget
(`not_outOfBudget_past_maxWord`).
-/

namespace TypeGraph

universe u

variable {K : Type u}

/-- Whether a call asks for a step that is within the budget. -/
def Event.isGranted : Event K → Bool
  | enter _ answer => answer ≠ .outOfBudget
  | _ => false

/-- How many steps were within the budget since the last reset. -/
def History.granted (es : History K) : ℕ := es.recent.countP Event.isGranted

section

variable [DecidableEq K] {tracks : Bool} {limits : Limits} {es : History K} {g : Guard K}

/-- The next step is refused for the budget exactly if it is one too many, unless the limit is the
largest number of 32 bits. -/
theorem Runs.outOfBudget_iff (h : Runs tracks limits es g) (k : K) :
    (g.enter k).1 = .outOfBudget ↔
      limits.maxNodes ≠ maxWord ∧ limits.maxNodes.toNat < es.requests + 1 := by
  have hr := h.reflects
  have hanswer : (g.enter k).1 = .outOfBudget ↔ limits.maxNodes.toNat < g.count.nodes := by
    rw [Guard.enter_eq, ← hr.limits, Guard.lt_nodes_count_iff]
    split_ifs with hb <;> simp [hb]
  rw [hanswer, hr.nodes_count]
  by_cases hm : limits.maxNodes = maxWord
  · simp [hm]
  · have hlt := Guard.toNat_lt_maxWord hm
    simp only [ne_eq, hm, not_false_eq_true, true_and]
    omega

/-- The steps within the budget are the first ones, as many as the limit says. -/
theorem Runs.granted_eq (h : Runs tracks limits es g) (hm : limits.maxNodes ≠ maxWord) :
    es.granted = min es.requests limits.maxNodes.toNat := by
  induction h with
  | start => simp [History.granted, History.recent]
  | @enter es g h k ih =>
    have hb := h.outOfBudget_iff k
    rw [History.requests_enter, History.granted, History.recent_enter, List.countP_cons,
      ← History.granted, ih]
    simp only [Event.isGranted, decide_eq_true_eq, ne_eq, hb, hm, not_false_eq_true, true_and]
    split_ifs <;> omega
  | leave h k _ _ ih =>
    rw [History.requests_leave, ← ih, History.granted, History.recent_leave,
      List.countP_cons_of_neg Bool.false_ne_true, History.granted]
  | reset h ih => simp [History.granted, History.recent_reset]

/-- A step was refused for the budget only if it was one too many. -/
theorem Runs.lt_requests (h : Runs tracks limits es g) {k : K}
    (hk : .enter k .outOfBudget ∈ es.recent) :
    limits.maxNodes ≠ maxWord ∧ limits.maxNodes.toNat < es.requests := by
  induction h with
  | start => cases hk
  | @enter es g h j ih =>
    rw [History.recent_enter, List.mem_cons, Event.enter.injEq] at hk
    rw [History.requests_enter]
    rcases hk with ⟨-, hj⟩ | hk
    · exact (h.outOfBudget_iff j).mp hj.symm
    · obtain ⟨hm, hlt⟩ := ih hk
      exact ⟨hm, by omega⟩
  | leave h j _ _ ih =>
    rw [History.recent_leave, List.mem_cons] at hk
    rw [History.requests_leave]
    exact ih (hk.resolve_left nofun)
  | reset h ih => cases hk

/-- A limit below the largest number of 32 bits bounds the steps between two resets: the next one
is refused exactly if it is one too many, and then so is every later one. With the largest number
of 32 bits as the limit no step is refused for the budget. -/
theorem Runs.budget_bounds (h : Runs tracks limits es g) :
    (∀ k, (g.enter k).1 = .outOfBudget ↔
      limits.maxNodes ≠ maxWord ∧ limits.maxNodes.toNat < es.requests + 1) ∧
      (limits.maxNodes ≠ maxWord → es.granted ≤ limits.maxNodes.toNat) ∧
      ∀ j, .enter j .outOfBudget ∈ es.recent → ∀ k, (g.enter k).1 = .outOfBudget := by
  refine ⟨h.outOfBudget_iff, fun hm => ?_, fun j hj k => ?_⟩
  · rw [h.granted_eq hm]
    exact Nat.min_le_right _ _
  · obtain ⟨hm, hlt⟩ := h.lt_requests hj
    exact (h.outOfBudget_iff k).mpr ⟨hm, by omega⟩

end

/-- With a budget of one, the second step is refused, and then the third although the path is empty
again. -/
theorem Runs.budget_bounds_one :
    let es : History ℕ := [.leave 1, .enter 2 .outOfBudget, .enter 1 .entered]
    let g : Guard ℕ := ⟨some [], 0, 2, ⟨5, 1⟩, true⟩
    Runs true ⟨5, 1⟩ es g ∧ es.granted ≤ 1 ∧ (g.enter 1).1 = .outOfBudget := by
  intro es g
  have h : Runs true ⟨5, 1⟩ es g :=
    .leave (.enter (.enter .start 1) 2) 1 (fun _ => by decide) fun hf => by cases hf
  obtain ⟨-, hgranted, hlater⟩ := Runs.budget_bounds h
  exact ⟨h, hgranted (by decide), hlater 2 (by decide) 1⟩

/-! ## The largest limit -/

theorem requests_replicate (k : K) (answer : Step) (n : ℕ) :
    History.requests (List.replicate n (.enter k answer)) = n := by
  induction n with
  | zero => rfl
  | succ n ih => rw [List.replicate_succ, History.requests_enter, ih]

/-- A guard without room for a path and with the largest limit on steps, after some requests. -/
def Guard.closed (n : ℕ) : Guard Unit := ⟨none, 0, min n maxWord.toNat, ⟨0, maxWord⟩, n != 0⟩

theorem enter_closed (n : ℕ) : (Guard.closed n).enter () = (.tooDeep, .closed (n + 1)) := by
  have hn : min (min n maxWord.toNat + 1) maxWord.toNat = min (n + 1) maxWord.toNat := by omega
  have hle : ¬ maxWord.toNat < min (n + 1) maxWord.toNat := by omega
  simp [Guard.enter, Guard.count, Guard.closed, Guard.isOnPath, Guard.maxDepth, hn, hle]

theorem runs_closed (n : ℕ) :
    Runs false ⟨0, maxWord⟩ (List.replicate n (.enter () .tooDeep)) (.closed n) := by
  induction n with
  | zero => exact .start
  | succ n ih =>
    have hnext := ih.enter ()
    rw [enter_closed] at hnext
    exact hnext

/-- The largest limit bounds nothing: after as many requests the next one is not refused for the
budget. -/
theorem not_outOfBudget_past_maxWord :
    let es : History Unit := List.replicate maxWord.toNat (.enter () .tooDeep)
    let g : Guard Unit := .closed maxWord.toNat
    Runs false ⟨0, maxWord⟩ es g ∧ maxWord.toNat < es.requests + 1 ∧
      (g.enter ()).1 ≠ .outOfBudget := by
  refine ⟨runs_closed maxWord.toNat, ?_, ?_⟩
  · rw [requests_replicate]
    exact Nat.lt_succ_self _
  · rw [enter_closed]
    decide

end TypeGraph
