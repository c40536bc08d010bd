import TypeGraph.Proofs.Arena.Interning
import Mathlib.Logic.Function.Basic

/-!
# Which handles a run gives out

A command asks for types (`Arena.Command.requests`), each for a literal or for a new type. How they
are numbered is a machine of its own: a literal that was asked for before keeps its number, and
everything else gets the next one (`Arena.Numbering.step`). An arena gives the handles of these
numbers (`Arena.Reflects.run`), so literals share a handle exactly if they are equal, and all other
types have handles of their own (`Arena.handles_numbered`).
-/

namespace TypeGraph

namespace Arena

/-- What a literal is looked up by: its text, or its bit pattern. -/
inductive Key where
  | string (value : String)
  | number (value : Double)
  deriving DecidableEq

/-- What a type is asked for: a literal, or any type that is not looked up. -/
inductive Request where
  | literal (key : Key)
  | type
  deriving DecidableEq

/-- The types that a command asks for, in order. -/
def Command.requests : Command → List Request
  | .stringLiteral value => [.literal (.string value)]
  | .numberLiteral value => [.literal (.number value)]
  | .booleanLiteral _ | .property .. | .optionalProperty .. | .unresolvedProperty _
  | .define .. => []
  | .nest _ _ count => .replicate count .type
  | .wide count =>
    ((List.range count).map fun n =>
      .literal (.string ("m" ++ String.ofList (Nat.toDigits 10 n)))) ++ [.type]
  | .intrinsic _ | .typeParameter | .uniqueSymbol | .reserve | .bigintLiteral _ | .union _
  | .intersection _ | .enumMember _ | .stringEnumMember _ | .enumLiteralUnion _ | .enumUnion _
  | .objectWithIndex .. | .array _ | .tuple _ | .reference .. => [.type]

/-- The type of a literal. -/
def literal (a : Arena) : Key → TypeId × Arena
  | .string value => a.stringLiteral value
  | .number value => a.numberLiteral value

/-- The handle of a literal that was made. -/
def handle? (a : Arena) : Key → Option TypeId
  | .string value => a.strings[value]?
  | .number value => a.numbers[value.bits]?

/-! ## Numbers -/

/-- How many types there are, and which of them are literals. -/
structure Numbering where
  size : ℕ
  number? : Key → Option ℕ

namespace Numbering

variable {n : Numbering} {r : Request} {k l : Key} {i : ℕ}

/-- The number for a request: that of a literal that is there, and otherwise the next one. -/
def step (n : Numbering) : Request → ℕ × Numbering
  | .type => (n.size, { n with size := n.size + 1 })
  | .literal k =>
    match n.number? k with
    | some i => (i, n)
    | none => (n.size, ⟨n.size + 1, Function.update n.number? k (some n.size)⟩)

/-- The numbering after some requests. -/
def run (n : Numbering) (rs : List Request) : Numbering := rs.foldl (fun n r => (n.step r).2) n

theorem run_cons (n : Numbering) (r : Request) (rs : List Request) :
    n.run (r :: rs) = (n.step r).2.run rs := rfl

theorem run_append (n : Numbering) (rs rs' : List Request) :
    n.run (rs ++ rs') = (n.run rs).run rs' := List.foldl_append

/-- The types that every arena starts with; no literals are looked up among them. -/
def start : Numbering := ⟨TypeId.firstDynamic, fun _ => none⟩

/-- The literal of a request is there. -/
def Known (n : Numbering) (r : Request) : Prop := ∃ k, r = .literal k ∧ (n.number? k).isSome

theorem known_literal_iff : n.Known (.literal k) ↔ (n.number? k).isSome := by
  simp [Known]

theorem fst_step_of_some (h : n.number? k = some i) : (n.step (.literal k)).1 = i := by
  rw [step, h]

theorem step_of_known (h : n.Known r) : (n.step r).2 = n := by
  obtain ⟨k, rfl, hk⟩ := h
  obtain ⟨i, hi⟩ := Option.isSome_iff_exists.mp hk
  rw [step, hi]

theorem step_of_new (h : ¬ n.Known r) : (n.step r).1 = n.size ∧ (n.step r).2.size = n.size + 1 := by
  cases r with
  | type => exact ⟨rfl, rfl⟩
  | literal k =>
    have hk : n.number? k = none := by
      rw [← Option.not_isSome_iff_eq_none]
      exact fun hk => h ⟨k, rfl, hk⟩
    rw [step, hk]
    exact ⟨rfl, rfl⟩

/-- A step gives its own literal a number, and leaves the other ones theirs. -/
theorem number?_step (n : Numbering) (r : Request) (k : Key) :
    (n.step r).2.number? k = if r = .literal k then some (n.step r).1 else n.number? k := by
  cases r with
  | type => rfl
  | literal l =>
    have hreq : Request.literal l = .literal k ↔ l = k := ⟨Request.literal.inj, congrArg _⟩
    simp only [hreq, step]
    by_cases hk : l = k
    · rw [if_pos hk, ← hk]
      cases hl : n.number? l with
      | some i => exact hl
      | none => exact Function.update_self ..
    · rw [if_neg hk]
      cases hl : n.number? l with
      | some i => rfl
      | none => exact Function.update_of_ne (Ne.symm hk) ..

/-- Literals are numbered among the types, each with a number of its own. -/
structure WF (n : Numbering) : Prop where
  lt {k : Key} {i : ℕ} : n.number? k = some i → i < n.size
  injective {k l : Key} {i : ℕ} : n.number? k = some i → n.number? l = some i → k = l

theorem wf_start : start.WF := ⟨nofun, nofun⟩

theorem WF.step (h : n.WF) (r : Request) : (n.step r).2.WF := by
  by_cases hr : n.Known r
  · rwa [step_of_known hr]
  obtain ⟨hnext, hsize⟩ := step_of_new hr
  -- the next number is none of those given before
  constructor
  · intro k i hk
    rw [number?_step, hnext] at hk
    rw [hsize]
    split at hk
    next => exact Option.some.inj hk ▸ Nat.lt_succ_self _
    next => exact Nat.lt_succ_of_lt (h.lt hk)
  · intro k l i hk hl
    rw [number?_step, hnext] at hk hl
    split at hk <;> split at hl
    next hrk hrl => exact Request.literal.inj (hrk.symm.trans hrl)
    next => exact absurd (Option.some.inj hk).symm (Nat.ne_of_lt (h.lt hl))
    next => exact absurd (Option.some.inj hl).symm (Nat.ne_of_lt (h.lt hk))
    next => exact h.injective hk hl

theorem WF.run (h : n.WF) (rs : List Request) : (n.run rs).WF := by
  induction rs generalizing n with
  | nil => exact h
  | cons r rs ih => exact ih (h.step r)

/-- A literal keeps its number. -/
theorem number?_step_of_some (h : n.number? k = some i) (r : Request) :
    (n.step r).2.number? k = some i := by
  rw [number?_step]
  split
  next hr =>
    subst hr
    rw [step, h]
  next => exact h

theorem number?_run_of_some (h : n.number? k = some i) (rs : List Request) :
    (n.run rs).number? k = some i := by
  induction rs generalizing n with
  | nil => exact h
  | cons r rs ih => exact ih (number?_step_of_some h r)

/-- The literals that have a number are those that were asked for. -/
theorem isSome_number?_run (n : Numbering) (rs : List Request) (k : Key) :
    ((n.run rs).number? k).isSome ↔ (n.number? k).isSome ∨ .literal k ∈ rs := by
  induction rs generalizing n with
  | nil => simp [run]
  | cons r rs ih =>
    rw [run_cons, ih, number?_step, List.mem_cons, eq_comm (b := r)]
    split <;> simp [*]

/-- From the start, the literals that are there are those that were asked for. -/
theorem known_start_run {rs : List Request} :
    (start.run rs).Known r ↔ r ∈ rs ∧ r ≠ .type := by
  cases r with
  | type => simp [Known]
  | literal k => simp [known_literal_iff, isSome_number?_run, start]

/-- Two literals, with other requests between them, get the same number exactly if they are equal.
Both numbers are below the size at the end. -/
theorem WF.literals (h : n.WF) (rs : List Request) (k l : Key) :
    let first := n.step (.literal k)
    let last := (first.2.run rs).step (.literal l)
    (first.1 = last.1 ↔ k = l) ∧ first.1 < last.2.size ∧ last.1 < last.2.size := by
  intro first last
  have hk : first.2.number? k = some first.1 := by rw [number?_step, if_pos rfl]
  have hl : last.2.number? l = some last.1 := by rw [number?_step, if_pos rfl]
  have hk' : last.2.number? k = some first.1 :=
    number?_step_of_some (number?_run_of_some hk rs) (.literal l)
  have hwf : last.2.WF := ((h.step (.literal k)).run rs).step (.literal l)
  refine ⟨⟨fun he => hwf.injective (he ▸ hk') hl, ?_⟩, hwf.lt hk', hwf.lt hl⟩
  rintro rfl
  exact Option.some.inj (hk'.symm.trans hl)

end Numbering

/-! ## Handles -/

variable {a : Arena} {n : Numbering} {r : Request}

/-- An arena gives out the handles of a numbering. -/
structure Reflects (a : Arena) (n : Numbering) : Prop where
  size : a.size = n.size
  handles (k : Key) : a.handle? k = (n.number? k).map .ofNumber

/-- The handle that a request gets, with the arena after it. -/
def Answers (made : TypeId × Arena) (n : Numbering) (r : Request) : Prop :=
  made.1 = .ofNumber (n.step r).1 ∧ made.2.Reflects (n.step r).2

theorem reflects_new : new.Reflects .start where
  size := rfl
  handles k := by cases k <;> simp [handle?, new, Numbering.start]

theorem Reflects.push (h : a.Reflects n) (entry : TypeEntry) :
    Answers (a.push entry) n .type where
  left := congrArg TypeId.ofNumber h.size
  right := ⟨(Array.size_push ..).trans (congrArg (· + 1) h.size), h.handles⟩

theorem Reflects.pushSymbol (h : a.Reflects n) (entry : SymbolEntry) :
    (a.pushSymbol entry).2.Reflects n := ⟨h.size, h.handles⟩

theorem Reflects.put (h : a.Reflects n) (id : TypeId) (entry : TypeEntry) :
    (a.put id entry).Reflects n := ⟨(size_put ..).trans h.size, h.handles⟩

theorem Reflects.handle?_of_some (h : a.Reflects n) {k : Key} {i : ℕ} (hi : n.number? k = some i) :
    a.handle? k = some (.ofNumber i) := by rw [h.handles, hi, Option.map_some]

/-- A literal that is there is found. -/
theorem literal_of_some {k : Key} {id : TypeId} (h : a.handle? k = some id) :
    a.literal k = (id, a) := by
  cases k with
  | string value => exact stringLiteral_of_some h
  | number value => exact numberLiteral_of_some h

/-- A literal that is not there is pushed, and is the only one found afterwards that was not. -/
theorem literal_of_none {k : Key} (h : a.handle? k = none) :
    ∃ entry, (a.literal k).1 = (a.push entry).1 ∧
      (a.literal k).2.size = (a.push entry).2.size ∧
      ∀ l, (a.literal k).2.handle? l =
        if k = l then some (a.push entry).1 else a.handle? l := by
  cases k with
  | string value =>
    rw [literal, stringLiteral_of_none h]
    refine ⟨_, rfl, rfl, fun l => ?_⟩
    cases l with
    | string value' => simp [handle?, Std.HashMap.getElem?_insert]
    | number value' => rfl
  | number value =>
    rw [literal, numberLiteral_of_none h]
    refine ⟨_, rfl, rfl, fun l => ?_⟩
    cases l with
    | string value' => rfl
    | number value' =>
      have hbits : value.bits = value'.bits ↔ value = value' := by
        rw [← Double.mk.injEq]
      simp [handle?, Std.HashMap.getElem?_insert, hbits]

theorem Reflects.literal (h : a.Reflects n) (k : Key) : Answers (a.literal k) n (.literal k) := by
  by_cases hknown : n.Known (.literal k)
  · obtain ⟨i, hi⟩ := Option.isSome_iff_exists.mp (Numbering.known_literal_iff.mp hknown)
    rw [Answers, Numbering.fst_step_of_some hi, Numbering.step_of_known hknown,
      literal_of_some (h.handle?_of_some hi)]
    exact ⟨rfl, h⟩
  · obtain ⟨hnumber, hnext⟩ := Numbering.step_of_new hknown
    rw [Numbering.known_literal_iff, Option.not_isSome_iff_eq_none] at hknown
    have hk : a.handle? k = none := by rw [h.handles, hknown, Option.map_none]
    obtain ⟨entry, hid, hsize, hl⟩ := literal_of_none hk
    obtain ⟨hpush, hpushed⟩ := h.push entry
    refine ⟨?_, ?_, fun l => ?_⟩
    · rw [hid, hpush, hnumber]
      rfl
    · rw [hsize, hpushed.size, hnext]
      rfl
    · rw [hl, hpush, Numbering.number?_step, hnumber, h.handles l]
      simp only [Request.literal.injEq]
      split <;> rfl

/-! ## Runs -/

theorem Reflects.wrap (h : a.Reflects n) (type : TypeId) (how : Wrapping) :
    Answers (a.wrap type how) n .type := by
  cases how with
  | property => exact (h.pushSymbol _).push _
  | _ => exact h.push _

theorem Reflects.wrapAll (h : a.Reflects n) (how : Wrapping) (type : TypeId) (count : ℕ) :
    (a.wrapAll how type count).2.Reflects (n.run (.replicate count .type)) := by
  induction count generalizing a n type with
  | zero => exact h
  | succ count ih => exact ih (h.wrap type how).2 _

theorem Reflects.numbered (h : a.Reflects n) (count : ℕ) :
    (a.numbered count).2.Reflects (n.run ((List.range count).map fun n =>
      .literal (.string ("m" ++ String.ofList (Nat.toDigits 10 n))))) := by
  rw [Arena.numbered]
  generalize List.range count = ns
  induction ns generalizing a n with
  | nil => exact h
  | cons m ns ih => exact ih (h.literal (.string _)).2

/-- A command asks for its types one after the other, and returns the only one. -/
theorem Reflects.apply (h : a.Reflects n) (command : Command) :
    (a.apply command).2.Reflects (n.run command.requests) ∧
      ∀ r, command.requests = [r] → (a.apply command).1 = .type (.ofNumber (n.step r).1) := by
  have single {made : TypeId × Arena} {r : Request} (hmade : Answers made n r) :
      (typeResult made).2.Reflects (n.run [r]) ∧
        ∀ r', [r] = [r'] → (typeResult made).1 = .type (.ofNumber (n.step r').1) :=
    ⟨hmade.2, fun r' hr => List.singleton_inj.mp hr ▸ congrArg Result.type hmade.1⟩
  cases command with
  | stringLiteral value => exact single (h.literal (.string value))
  | numberLiteral value => exact single (h.literal (.number value))
  | booleanLiteral value => exact ⟨h, nofun⟩
  | property | optionalProperty | unresolvedProperty => exact ⟨h.pushSymbol _, nofun⟩
  | define id shapeOf =>
    refine ⟨?_, nofun⟩
    obtain ⟨hd, -⟩ | ⟨entry, -, -, hd⟩ := a.define_cases id shapeOf
    · rwa [Arena.apply, hd]
    · rw [Arena.apply, hd]
      exact h.put id entry
  | nest how type count =>
    refine ⟨h.wrapAll how type count, fun r hr => ?_⟩
    obtain rfl : count = 1 := by simpa [Command.requests] using congrArg List.length hr
    obtain rfl : .type = r := List.singleton_inj.mp hr
    exact congrArg Result.type (h.wrap type how).1
  | wide count =>
    have hrun := (h.numbered count).push (.plain [.union] (.members (a.numbered count).1))
    refine ⟨?_, fun r hr => ?_⟩
    · rw [Command.requests, Numbering.run_append]
      exact hrun.2
    · obtain rfl : count = 0 := by simpa [Command.requests] using congrArg List.length hr
      obtain rfl : .type = r := List.singleton_inj.mp hr
      exact congrArg Result.type hrun.1
  | reference name arguments => exact single ((h.pushSymbol _).push _)
  | _ => exact single (h.push _)

theorem Reflects.run (h : a.Reflects n) (commands : List Command) :
    (a.run commands).Reflects (n.run (commands.flatMap (·.requests))) := by
  induction commands generalizing a n with
  | nil => exact h
  | cons command commands ih =>
    rw [List.flatMap_cons, Numbering.run_append]
    exact ih (h.apply command).1

/-- What a run from the start asks for. -/
theorem reflects_run (commands : List Command) :
    (new.run commands).Reflects (Numbering.start.run (commands.flatMap (·.requests))) :=
  reflects_new.run commands

/-- Handles of different numbers differ as long as there are words for them. -/
theorem ofNumber_inj {i j : ℕ} (hi : i < UInt32.size) (hj : j < UInt32.size) :
    TypeId.ofNumber i = .ofNumber j ↔ i = j := by
  constructor
  · intro h
    have hword : (UInt32.ofNat i).toNat = (UInt32.ofNat j).toNat :=
      congrArg (fun id : TypeId => id.index.toNat) h
    rwa [UInt32.toNat_ofNat_of_lt' hi, UInt32.toNat_ofNat_of_lt' hj] at hword
  · exact congrArg _

/-- A command that asks for a literal makes it. -/
theorem apply_of_requests {command : Command} {k : Key} (h : command.requests = [.literal k])
    (a : Arena) : a.apply command = typeResult (a.literal k) := by
  cases command with
  | stringLiteral value =>
    cases h
    rfl
  | numberLiteral value =>
    cases h
    rfl
  | nest how type count =>
    have hmem : Request.literal k ∈ List.replicate count .type := by
      rw [show List.replicate count .type = [Request.literal k] from h]
      exact List.mem_singleton_self _
    cases List.eq_of_mem_replicate hmem
  | wide count =>
    have hlast := congrArg List.getLast? h
    rw [Command.requests, List.getLast?_concat] at hlast
    cases hlast
  | _ => cases h

/-- A command that asks for a literal that is there leaves an arena as it is. -/
theorem Reflects.apply_of_known (h : a.Reflects n) {command : Command}
    (hr : command.requests = [r]) (hknown : n.Known r) : (a.apply command).2 = a := by
  obtain ⟨k, rfl, hk⟩ := hknown
  obtain ⟨i, hi⟩ := Option.isSome_iff_exists.mp hk
  rw [apply_of_requests hr, literal_of_some (h.handle?_of_some hi)]
  rfl

/-- A command that asks for anything else adds one type, and returns the number that it gets as long
as there is a word for it. -/
theorem Reflects.apply_of_new (h : a.Reflects n) {command : Command}
    (hr : command.requests = [r]) (hnew : ¬ n.Known r) :
    (a.apply command).2.size = a.size + 1 ∧
      ((a.apply command).2.size ≤ UInt32.size →
        ∃ id, (a.apply command).1 = .type id ∧ id.index.toNat = a.size) := by
  obtain ⟨hnumber, hnext⟩ := Numbering.step_of_new hnew
  obtain ⟨happly, hresult⟩ := h.apply command
  have hsize : (a.apply command).2.size = a.size + 1 := by
    rw [happly.size, hr, h.size]
    exact hnext
  refine ⟨hsize, fun hs => ⟨_, hresult r hr, ?_⟩⟩
  rw [hsize] at hs
  rw [hnumber, ← h.size]
  exact UInt32.toNat_ofNat_of_lt' (Nat.lt_of_succ_le hs)

/-- In a run from the start, two literals have the same handle exactly if they are equal. A command
that asks for one type gets the next number and adds that type, unless it asks for a literal again:
then, as with the literals that are always there, nothing is added. A `define` makes no difference
to the handles of literals. -/
theorem handles_numbered :
    (∀ (before between : List Command) (k l : Key),
      let first := (new.run before).literal k
      let second := (first.2.run between).literal l
      second.2.size ≤ UInt32.size → (first.1 = second.1 ↔ k = l)) ∧
    (∀ (before : List Command) (command : Command) (r : Request), command.requests = [r] →
      let a := new.run before
      if r ∈ before.flatMap (·.requests) ∧ r ≠ .type then (a.apply command).2 = a
      else (a.apply command).2.size = a.size + 1 ∧
        ((a.apply command).2.size ≤ UInt32.size →
          ∃ id, (a.apply command).1 = .type id ∧ id.index.toNat = a.size)) ∧
    (∀ (a : Arena) (value : Bool), (a.apply (.booleanLiteral value)).2 = a) ∧
    ∀ (before after : List Command) (id shapeOf : TypeId) (k : Key),
      ((new.run (before ++ .define id shapeOf :: after)).literal k).1 =
        ((new.run (before ++ after)).literal k).1 := by
  refine ⟨?_, ?_, fun a value => rfl, ?_⟩
  · intro before between k l first second hs
    obtain ⟨hfirst, hmade⟩ := (reflects_run before).literal k
    obtain ⟨hsecond, hlast⟩ := (hmade.run between).literal l
    obtain ⟨heq, hlt, hlt'⟩ := (Numbering.wf_start.run (before.flatMap (·.requests))).literals
      (between.flatMap (·.requests)) k l
    rw [hlast.size] at hs
    rw [hfirst, hsecond, ofNumber_inj (Nat.lt_of_lt_of_le hlt hs)
      (Nat.lt_of_lt_of_le hlt' hs), heq]
  · intro before command r hr a
    have h := reflects_run before
    have hknown : (Numbering.start.run (before.flatMap (·.requests))).Known r ↔
        r ∈ before.flatMap (·.requests) ∧ r ≠ .type := Numbering.known_start_run
    split
    next hagain => exact h.apply_of_known hr (hknown.mpr hagain)
    next hnew => exact h.apply_of_new hr (mt hknown.mp hnew)
  · intro before after id shapeOf k
    have h := (reflects_run (before ++ .define id shapeOf :: after)).literal k
    have h' := (reflects_run (before ++ after)).literal k
    rw [List.flatMap_append, List.flatMap_cons] at h
    rw [List.flatMap_append] at h'
    exact h.1.trans h'.1.symm

/-- After a reserved type and a string literal: the zeros have handles of their own, the string
literal is not made again, and a union is a new type. -/
theorem handles_numbered_zeros :
    let a := new.run [.reserve, .stringLiteral "a"]
    let zero := a.literal (.number ⟨0⟩)
    zero.1 ≠ ((zero.2.run [.typeParameter]).literal (.number ⟨0x8000000000000000⟩)).1 ∧
      (a.apply (.stringLiteral "a")).2 = a ∧
      ∃ id, (a.apply (.union [])).1 = .type id ∧ id.index.toNat = a.size := by
  intro a zero
  obtain ⟨happart, hasks, -, -⟩ := handles_numbered
  have ha := reflects_run [.reserve, .stringLiteral "a"]
  have hzero := ((ha.literal (.number ⟨0⟩)).2.run [.typeParameter]).literal
    (.number ⟨0x8000000000000000⟩)
  refine ⟨?_, ?_, ?_⟩
  · refine mt (happart _ [.typeParameter] (.number ⟨0⟩) (.number ⟨0x8000000000000000⟩) ?_).mp
      (by decide)
    rw [hzero.2.size]
    decide
  · exact hasks [.reserve, .stringLiteral "a"] (.stringLiteral "a") (.literal (.string "a")) rfl
  · have hunion := (ha.apply (.union [])).1.size
    refine (hasks [.reserve, .stringLiteral "a"] (.union []) .type rfl).2 ?_
    rw [hunion]
    decide

end Arena

end TypeGraph
