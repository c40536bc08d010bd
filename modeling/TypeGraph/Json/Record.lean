import TypeGraph.Json.Problem

/-!
# Reading records

A schema is read from a value in memory (`Json`) or straight from a text (`Draft`); a `View` says
how either looks to it, layer by layer. Reading goes through a document in its order, and the
first problem on the way is the result.

* `View.text`, `View.truth`, `View.items` and so on read a value of one type;
* `View.readFields` reads the two fields of a record and hands everything else to its caller;
* `Json.view` and `Draft.view` are the two views.
-/

namespace TypeGraph

/-- The outermost layer of a value: what it holds, and for a text the flaw in which it ends. -/
inductive Layer (J : Type) where
  | scalar (s : Scalar)
  | sequence (items : List J) (flaw : Option Fault)
  | map (members : List (String × J)) (flaw : Option Fault)

/-- What a layer is, for a message. -/
def Layer.found {J : Type} : Layer J → Found
  | scalar s => .scalar s
  | sequence _ _ => .sequence
  | map _ _ => .map

/-- How values look to a schema. -/
structure View (J : Type) where
  /-- the outermost layer -/
  layer : J → Except Problem (Layer J)
  /-- what is noticed of a value that is not wanted -/
  skip : J → Except Problem Unit
  /-- the whole value, for later -/
  keep : J → Except Problem Json
  /-- the problem with a sequence of this length that should have two elements -/
  tooLong : (length : Nat) → Problem

/-- The view of a value in memory. -/
def Json.view : View Json where
  layer
    | .scalar s => .ok (.scalar s)
    | .array items => .ok (.sequence items none)
    | .object members => .ok (.map members none)
  skip _ := .ok ()
  keep j := .ok j
  tooLong length := .mismatch (.tooLong length)

/-- The members of an object of a text up to the first flawed name, and the flaw in which they
end. -/
def Draft.members : List (Draft.Entry Draft) → Option Fault → List (String × Draft) × Option Fault
  | [], flaw => ([], flaw)
  | e :: es, flaw =>
    match e.name.text with
    | .ok name =>
      let (ms, flaw) := members es flaw
      ((name, e.value) :: ms, flaw)
    | .error f => ([], some f)

/-- The view of the parts of a text that are nested in one array or object already, which counts
towards `maxNesting`. -/
def Draft.view : View Draft where
  layer
    | .missing => .error (.fault .cutShort)
    | .string s => do return .scalar (.string (← ofFault s.text))
    | .scalar s _ => do return .scalar (← ofFault s)
    | .array items flaw => .ok (.sequence items flaw)
    | .object entries flaw =>
      let (ms, flaw) := Draft.members entries flaw
      .ok (.map ms flaw)
  skip d := ofFault d.skip
  keep d := ofFault (d.toJson (maxNesting - 1))
  tooLong _ := .fault .malformed

namespace View

variable {J : Type} {α β γ : Type}

/-! ## Values of one type -/

/-- Reads a string. -/
def text (v : View J) (j : J) : Except Problem String := do
  match ← v.layer j with
  | .scalar (.string s) => return s
  | l => refuse (.wrongType l.found .string)

/-- Reads a truth value. -/
def truth (v : View J) (j : J) : Except Problem Bool := do
  match ← v.layer j with
  | .scalar (.boolean b) => return b
  | l => refuse (.wrongType l.found .boolean)

/-- Reads a number as a double. -/
def double (v : View J) (j : J) : Except Problem Double := do
  match ← v.layer j with
  | .scalar (.number (.integer i)) => return .ofInt i
  | .scalar (.number (.float d)) => return d
  | l => refuse (.wrongType l.found .number)

/-- Reads a number of 32 bits, or `null` for none. -/
def word? (v : View J) (j : J) : Except Problem (Option UInt32) := do
  match ← v.layer j with
  | .scalar .null => return none
  | .scalar (.number (.integer i)) =>
    if 0 ≤ i ∧ i.toNat < Nat.pow 2 32 then return some (.ofNat i.toNat) else refuse (.wordOutOfRange i)
  | l => refuse (.wrongType l.found .word)

/-- Ends a reading at the end of an array or object. -/
def finish (flaw : Option Fault) : Except Problem Unit := ofFault (Draft.close flaw)

/-- Reads each element of a sequence. -/
def items (v : View J) (read : J → Except Problem α) (j : J) : Except Problem (List α) := do
  match ← v.layer j with
  | .sequence js flaw =>
    let found ← js.mapM read
    finish flaw
    return found
  | l => refuse (.wrongType l.found .sequence)

/-! ## Fields -/

/-- Takes a field that must be there. -/
def required (name : String) : Option α → Except Problem α
  | some a => .ok a
  | none => refuse (.missingField name)

/-- Reads a field unless it was met before. -/
def once (name : String) (seen : Option α) (read : Except Problem α) :
    Except Problem (Option α) :=
  match seen with
  | some _ => refuse (.duplicateField name)
  | none => do return some (← read)

/-- Reads the members of a record one by one: the two named fields, and what else there is. -/
def readFields (first second : String) (readFirst : J → Except Problem α)
    (readSecond : J → Except Problem β) (readOther : String → J → Except Problem γ) :
    Option α → Option β → List (String × J) → Option Fault → Except Problem (α × β × List γ)
  | a, b, [], flaw => do
    finish flaw
    let a ← required first a
    let b ← required second b
    return (a, b, [])
  | a, b, (name, j) :: ms, flaw =>
    if name = first then do
      let a ← once first a (readFirst j)
      readFields first second readFirst readSecond readOther a b ms flaw
    else if name = second then do
      let b ← once second b (readSecond j)
      readFields first second readFirst readSecond readOther a b ms flaw
    else do
      let c ← readOther name j
      let (a, b, cs) ← readFields first second readFirst readSecond readOther a b ms flaw
      return (a, b, c :: cs)

/-- Reads the one field of a record of values in memory. -/
def readField (name : String) (read : Json → Except Problem α) :
    Option α → List (String × Json) → Except Problem α
  | a, [] => required name a
  | a, (field, j) :: ms =>
    if field = name then do
      let a ← once name a (read j)
      readField name read a ms
    else readField name read a ms

/-- Reads a record of two fields, given by name in an object or by place in an array. -/
def record (v : View J) (expected : Expected) (first second : String)
    (readFirst : J → Except Problem α) (readSecond : J → Except Problem β) (j : J) :
    Except Problem (α × β) := do
  match ← v.layer j with
  | .map ms flaw =>
    let (a, b, _) ← readFields first second readFirst readSecond (fun _ j => v.skip j)
      none none ms flaw
    return (a, b)
  | .sequence js flaw =>
    match js with
    | [] =>
      finish flaw
      refuse (.tooShort 0 expected)
    | [j] =>
      let _ ← readFirst j
      finish flaw
      refuse (.tooShort 1 expected)
    | [j, k] =>
      let a ← readFirst j
      let b ← readSecond k
      finish flaw
      return (a, b)
    | j :: k :: more =>
      let _ ← readFirst j
      let _ ← readSecond k
      .error (v.tooLong (more.length + 2))
  | l => refuse (.wrongType l.found expected)

end View

end TypeGraph
