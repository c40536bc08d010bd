import TypeGraph.Proofs.Guard
import Mathlib.Data.Finset.Card

/-!
# The history of a guard

The calls to a guard with their answers, the last one first, are its history (`Runs`). What the
guard knows can be read off it: the path is the set of handles entered and not left since the last
reset (`History.path`), and the counter is the number of steps asked for since then
(`History.requests`).

* `Reflects.enter`, `Reflects.leave`, `Reflects.reset`: each call keeps the guard in step with its
  history;
* `Runs.reflects`: so does every run;
* `Runs.follows_path`: hence what the next step is answered, and what every query tells.
-/

namespace TypeGraph

universe u

variable {K : Type u}

/-- A call to a guard. A request for a step comes with its answer. -/
inductive Event (K : Type u) where
  | enter (k : K) (answer : Step)
  | leave (k : K)
  | reset
  deriving DecidableEq, Repr

namespace Event

/-- Whether a call starts over. -/
def isReset : Event K → Bool
  | reset => true
  | _ => false

/-- Whether a call asks for a step. -/
def isRequest : Event K → Bool
  | enter _ _ => true
  | _ => false

/-- Whether a call asks for a step that is allowed. -/
def isEntry : Event K → Bool
  | enter _ .entered => true
  | _ => false

/-- Whether a call takes a step back. -/
def isLeave : Event K → Bool
  | leave _ => true
  | _ => false

/-- Whether a call asks for a step that is refused for a limit. -/
def isRefusal : Event K → Bool
  | enter _ answer => answer.isLimit
  | _ => false

theorem isRefusal_iff {e : Event K} :
    e.isRefusal = true ↔
      ∃ k answer, e = enter k answer ∧ (answer = .tooDeep ∨ answer = .outOfBudget) := by
  cases e with
  | enter k answer => cases answer <;> simp [isRefusal, Step.isLimit]
  | _ => simp [isRefusal]

end Event

/-- The calls to a guard, the last one first. -/
abbrev History (K : Type u) := List (Event K)

namespace History

/-- The calls since the last reset. -/
def recent (es : History K) : History K := es.takeWhile fun e => !e.isReset

/-- How many steps were asked for since the last reset. -/
def requests (es : History K) : ℕ := es.recent.countP Event.isRequest

/-- How many steps were allowed since the last reset. -/
def entries (es : History K) : ℕ := es.recent.countP Event.isEntry

/-- How many steps were taken back since the last reset. -/
def leaves (es : History K) : ℕ := es.recent.countP Event.isLeave

/-- The handles that were entered and not left since the last reset. -/
def path [DecidableEq K] : History K → Finset K
  | [] => ∅
  | .enter k .entered :: es => insert k (path es)
  | .enter _ _ :: es => path es
  | .leave k :: es => (path es).erase k
  | .reset :: _ => ∅

section

variable (k : K) (answer : Step) (es : History K)

theorem recent_enter : recent (.enter k answer :: es) = .enter k answer :: recent es := rfl

theorem recent_leave : recent (.leave k :: es) = .leave k :: recent es := rfl

theorem recent_reset : recent (.reset :: es) = [] := rfl

@[simp] theorem requests_nil : requests ([] : History K) = 0 := rfl

@[simp] theorem requests_enter : requests (.enter k answer :: es) = requests es + 1 := by
  rw [requests, recent_enter, List.countP_cons_of_pos rfl, requests]

@[simp] theorem requests_leave : requests (.leave k :: es) = requests es := by
  rw [requests, recent_leave, List.countP_cons_of_neg Bool.false_ne_true, requests]

@[simp] theorem requests_reset : requests (.reset :: es) = 0 := rfl

theorem entries_entered : entries (.enter k .entered :: es) = entries es + 1 := by
  rw [entries, recent_enter, List.countP_cons_of_pos rfl, entries]

theorem entries_enter_of_ne (h : answer ≠ .entered) :
    entries (.enter k answer :: es) = entries es := by
  cases answer with
  | entered => exact absurd rfl h
  | _ => rw [entries, recent_enter, List.countP_cons_of_neg Bool.false_ne_true, entries]

theorem entries_leave : entries (.leave k :: es) = entries es := by
  rw [entries, recent_leave, List.countP_cons_of_neg Bool.false_ne_true, entries]

theorem leaves_enter : leaves (.enter k answer :: es) = leaves es := by
  rw [leaves, recent_enter, List.countP_cons_of_neg Bool.false_ne_true, leaves]

theorem leaves_leave : leaves (.leave k :: es) = leaves es + 1 := by
  rw [leaves, recent_leave, List.countP_cons_of_pos rfl, leaves]

theorem path_enter_of_ne [DecidableEq K] (h : answer ≠ .entered) :
    path (.enter k answer :: es) = path es := by
  cases answer with
  | entered => exact absurd rfl h
  | _ => rfl

end

end History

variable [DecidableEq K]

/-- A new guard, which remembers the handles on the path or only counts. -/
def Guard.start (tracks : Bool) (limits : Limits) : Guard K :=
  if tracks then .tracking limits else .depthOnly limits

/-- The histories of a guard, with the guard after them. A handle is left only while it is on the
path; where handles are not remembered, only while the path is not empty. -/
inductive Runs (tracks : Bool) (limits : Limits) : History K → Guard K → Prop
  | start : Runs tracks limits [] (.start tracks limits)
  | enter {es : History K} {g : Guard K} (h : Runs tracks limits es g) (k : K) :
      Runs tracks limits (.enter k (g.enter k).1 :: es) (g.enter k).2
  | leave {es : History K} {g : Guard K} (h : Runs tracks limits es g) (k : K)
      (tracked : tracks = true → k ∈ es.path) (counted : tracks = false → 0 < g.depth) :
      Runs tracks limits (.leave k :: es) (g.leave k)
  | reset {es : History K} {g : Guard K} (h : Runs tracks limits es g) :
      Runs tracks limits (.reset :: es) g.reset

/-! ## What a guard knows of its history -/

/-- The state of a guard is what its history says. -/
structure Reflects (tracks : Bool) (limits : Limits) (es : History K) (g : Guard K) : Prop where
  limits : g.limits = limits
  nodes : g.nodes = min es.requests maxWord.toNat
  hitLimit : g.hitLimit = es.recent.any Event.isRefusal
  tracked : tracks = true →
    ∃ path, g.path = some path ∧ path.Nodup ∧ path.toFinset = es.path ∧ g.depth = path.length
  counted : tracks = false → g.path = none ∧ g.depth + es.leaves = es.entries
  depth : g.depth ≤ g.maxDepth

namespace Reflects

variable {tracks : Bool} {limits : Limits} {es : History K} {g g' : Guard K}

theorem start (tracks : Bool) (limits : Limits) :
    Reflects tracks limits ([] : History K) (.start tracks limits) := by
  cases tracks with
  | false =>
    exact ⟨rfl, rfl, rfl, fun h => absurd h Bool.false_ne_true, fun _ => ⟨rfl, rfl⟩, Nat.zero_le _⟩
  | true =>
    exact ⟨rfl, rfl, rfl, fun _ => ⟨[], rfl, .nil, rfl, rfl⟩, fun h => absurd h.symm
      Bool.false_ne_true, Nat.zero_le _⟩

theorem nodes_count (h : Reflects tracks limits es g) :
    g.count.nodes = min (es.requests + 1) maxWord.toNat := by
  rw [Guard.nodes_count, h.nodes]
  omega

/-- A step that is not allowed leaves the path as it is. -/
theorem refused (h : Reflects tracks limits es g) {k : K} {answer : Step}
    (hne : answer ≠ .entered) (hp : g.SamePath g') (hn : g'.nodes = g.count.nodes)
    (hl : g'.hitLimit = (answer.isLimit || g.hitLimit)) :
    Reflects tracks limits (.enter k answer :: es) g' where
  limits := hp.limits.trans h.limits
  nodes := by rw [hn, h.nodes_count, History.requests_enter]
  hitLimit := by rw [hl, h.hitLimit]; rfl
  tracked ht := by
    rw [hp.path, hp.depth, History.path_enter_of_ne k answer es hne]
    exact h.tracked ht
  counted ht := by
    rw [hp.path, hp.depth, History.leaves_enter, History.entries_enter_of_ne k answer es hne]
    exact h.counted ht
  depth := by
    rw [hp.depth, hp.maxDepth]
    exact h.depth

/-- An allowed step puts the handle on the path. -/
theorem entered (h : Reflects tracks limits es g) {k : K} (hk : k ∉ g.path.getD [])
    (hd : g.depth < g.maxDepth) : Reflects tracks limits (.enter k .entered :: es) (g.step k) where
  limits := h.limits
  nodes := h.nodes_count.trans (by rw [History.requests_enter])
  hitLimit := h.hitLimit
  tracked ht := by
    obtain ⟨path, hp, hnodup, hes, hlen⟩ := h.tracked ht
    have hk : k ∉ path := by simpa [hp] using hk
    refine ⟨k :: path, ?_, hnodup.cons hk, ?_, ?_⟩
    · simp [Guard.step, hp]
    · rw [List.toFinset_cons, hes, History.path]
    · rw [Guard.depth_step, hlen, List.length_cons]
  counted ht := by
    obtain ⟨hp, hdepth⟩ := h.counted ht
    refine ⟨by simp [Guard.step, hp], ?_⟩
    rw [Guard.depth_step, History.leaves_enter, History.entries_entered]
    omega
  depth := by
    rw [Guard.depth_step, Guard.maxDepth_step]
    omega

theorem enter (h : Reflects tracks limits es g) (k : K) :
    Reflects tracks limits (.enter k (g.enter k).1 :: es) (g.enter k).2 := by
  rw [Guard.enter_eq]
  split_ifs with hb hk hd
  · exact h.refused Step.noConfusion g.samePath_refuse rfl rfl
  · exact h.refused Step.noConfusion g.samePath_count rfl rfl
  · exact h.refused Step.noConfusion g.samePath_refuse rfl rfl
  · exact h.entered hk (by omega)

theorem leave (h : Reflects tracks limits es g) {k : K} (tracked : tracks = true → k ∈ es.path)
    (counted : tracks = false → 0 < g.depth) :
    Reflects tracks limits (.leave k :: es) (g.leave k) where
  limits := h.limits
  nodes := by rw [History.requests_leave]; exact h.nodes
  hitLimit := h.hitLimit
  tracked ht := by
    obtain ⟨path, hp, hnodup, hes, hlen⟩ := h.tracked ht
    have hk : k ∈ path := by rw [← List.mem_toFinset, hes]; exact tracked ht
    refine ⟨path.erase k, by simp [Guard.leave, hp], hnodup.erase k, ?_, ?_⟩
    · ext j
      rw [List.mem_toFinset, hnodup.mem_erase_iff, History.path, Finset.mem_erase, ← hes,
        List.mem_toFinset]
    · rw [Guard.depth_leave, List.length_erase_of_mem hk, hlen]
  counted ht := by
    obtain ⟨hp, hdepth⟩ := h.counted ht
    have hpos := counted ht
    refine ⟨by simp [Guard.leave, hp], ?_⟩
    rw [Guard.depth_leave, History.leaves_leave, History.entries_leave]
    omega
  depth := by
    have hd := h.depth
    rw [Guard.depth_leave, Guard.maxDepth_leave]
    omega

theorem reset (h : Reflects tracks limits es g) :
    Reflects tracks limits (.reset :: es) g.reset where
  limits := h.limits
  nodes := rfl
  hitLimit := rfl
  tracked ht := by
    obtain ⟨path, hp, -⟩ := h.tracked ht
    exact ⟨[], by simp [Guard.reset, hp], .nil, rfl, rfl⟩
  counted ht := by
    obtain ⟨hp, -⟩ := h.counted ht
    exact ⟨by simp [Guard.reset, hp], rfl⟩
  depth := Nat.zero_le _

theorem maxDepth_eq (h : Reflects tracks limits es g) :
    g.maxDepth = if tracks then min limits.maxDepth.toNat 10000 else limits.maxDepth.toNat := by
  cases tracks with
  | false =>
    obtain ⟨hp, -⟩ := h.counted rfl
    simp [Guard.maxDepth, Guard.tracksPath, hp, h.limits]
  | true =>
    obtain ⟨path, hp, -⟩ := h.tracked rfl
    simp [Guard.maxDepth, Guard.tracksPath, hp, h.limits, maxVisitingHandles]

/-- The handles known to be on the path are those that the history says, if they are remembered. -/
theorem mem_path_iff (h : Reflects tracks limits es g) (k : K) :
    k ∈ g.path.getD [] ↔ tracks = true ∧ k ∈ es.path := by
  cases tracks with
  | false =>
    obtain ⟨hp, -⟩ := h.counted rfl
    simp [hp]
  | true =>
    obtain ⟨path, hp, -, hes, -⟩ := h.tracked rfl
    simp [hp, ← hes]

end Reflects

/-- After every run, the state of a guard is what its history says. -/
theorem Runs.reflects {tracks : Bool} {limits : Limits} {es : History K} {g : Guard K}
    (h : Runs tracks limits es g) : Reflects tracks limits es g := by
  induction h with
  | start => exact .start tracks limits
  | enter _ k ih => exact ih.enter k
  | leave _ k tracked counted ih => exact ih.leave tracked counted
  | reset _ ih => exact ih.reset

/-- After every run, the path of a guard is the set of handles entered and not left since the last
reset, or as long as that many steps where handles are not remembered. A request within the budget
is answered by that path and its length alone, and one that is not allowed leaves it as it is. -/
theorem Runs.follows_path {tracks : Bool} {limits : Limits} {es : History K} {g : Guard K}
    (h : Runs tracks limits es g) :
    (tracks = true → (∀ k, g.isOnPath k = true ↔ k ∈ es.path) ∧ g.depth = es.path.card) ∧
      (tracks = false → (∀ k, g.isOnPath k = false) ∧ g.depth + es.leaves = es.entries) ∧
      g.maxDepth = (if tracks then min limits.maxDepth.toNat 10000 else limits.maxDepth.toNat) ∧
      g.depth ≤ g.maxDepth ∧
      (∀ k, (g.enter k).1 ≠ .outOfBudget →
        (g.enter k).1 =
          if tracks = true ∧ k ∈ es.path then .revisit
          else if g.depth = g.maxDepth then .tooDeep
          else .entered) ∧
      (∀ k, (g.enter k).1 ≠ .entered →
        (g.enter k).2.path = g.path ∧ (g.enter k).2.depth = g.depth) ∧
      (g.hitLimit = true ↔
        ∃ k answer, .enter k answer ∈ es.recent ∧ (answer = .tooDeep ∨ answer = .outOfBudget)) ∧
      g.nodes = min es.requests (2 ^ 32 - 1) := by
  have hr := h.reflects
  have hpath (k : K) : g.isOnPath k = true ↔ tracks = true ∧ k ∈ es.path :=
    Guard.isOnPath_iff.trans (hr.mem_path_iff k)
  refine ⟨fun ht => ⟨fun k => ?_, ?_⟩, fun ht => ⟨fun k => ?_, (hr.counted ht).2⟩, hr.maxDepth_eq,
    hr.depth, fun k hb => ?_, fun k hne => ?_, ?_, hr.nodes⟩
  · rw [hpath, and_iff_right ht]
  · obtain ⟨path, -, hnodup, hes, hlen⟩ := hr.tracked ht
    rw [hlen, ← hes, List.toFinset_card_of_nodup hnodup]
  · rw [← Bool.not_eq_true, hpath, ht]
    simp
  · have hd := hr.depth
    have hdeep : g.maxDepth ≤ g.depth ↔ g.depth = g.maxDepth := by omega
    rw [Guard.answer_eq hb]
    simp only [hr.mem_path_iff, hdeep]
  · have hsame := Guard.samePath_enter hne
    exact ⟨hsame.path, hsame.depth⟩
  · rw [hr.hitLimit, List.any_eq_true]
    simp only [Event.isRefusal_iff]
    constructor
    · rintro ⟨_, he, k, answer, rfl, hl⟩
      exact ⟨k, answer, he, hl⟩
    · rintro ⟨k, answer, he, hl⟩
      exact ⟨_, he, k, answer, rfl, hl⟩

/-- A guard that remembers handles, on a path of two of which the first is left before the second:
the second one is on the path still. -/
theorem Runs.follows_path_leave_first :
    let es : History ℕ := [.leave 1, .enter 2 .entered, .enter 1 .entered]
    let g : Guard ℕ := ⟨some [2], 1, 2, ⟨2, 3⟩, false⟩
    Runs true ⟨2, 3⟩ es g ∧ g.isOnPath 2 = true ∧ g.depth = es.path.card ∧
      (g.enter 2).1 = .revisit := by
  intro es g
  have h : Runs true ⟨2, 3⟩ es g :=
    .leave (.enter (.enter .start 1) 2) 1 (fun _ => by decide) fun hf => by cases hf
  obtain ⟨htracked, -, -, -, hanswer, -⟩ := Runs.follows_path h
  refine ⟨h, ((htracked rfl).1 2).mpr (by decide), (htracked rfl).2, ?_⟩
  rw [hanswer 2 (by decide), if_pos (by decide)]

end TypeGraph
