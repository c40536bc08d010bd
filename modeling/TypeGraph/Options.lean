import TypeGraph.Limits
import TypeGraph.Model.Reader

/-!
# Options of a compilation

* `Options.limits` are the bounds that options ask for;
* `Options.text` and `Options.ofText` write and read options as JSON; what a document leaves out
  stays as it is by default.
-/

namespace TypeGraph

/-- What to do about a handle that is met again on its own path. -/
inductive CyclePolicy where
  /-- remember the path, and mark what repeats on it -/
  | detect
  /-- trust that nothing repeats -/
  | trust
  deriving DecidableEq, Repr

/-- The word for a policy. -/
def CyclePolicy.name : CyclePolicy → String
  | detect => "detect"
  | trust => "trust"

/-- The policies. -/
def CyclePolicy.all : List CyclePolicy := [detect, trust]

/-- Options of a compilation. -/
structure Options where
  cyclePolicy : CyclePolicy
  /-- whether models keep the handle they were made from -/
  recordOrigin : Bool
  maxDepth : Option UInt32
  maxNodes : Option UInt32
  deriving DecidableEq, Repr

namespace Options

/-- The options unless others are given. -/
def standard : Options := ⟨.detect, true, none, none⟩

/-- The bounds that options ask for. Without cycles there is no limit on depth by default. -/
def limits (o : Options) : Limits :=
  let depth :=
    match o.cyclePolicy with
    | .detect => Limits.standard.maxDepth
    | .trust => maxWord
  ⟨o.maxDepth.getD depth, o.maxNodes.getD Limits.standard.maxNodes⟩

/-! ## JSON -/

/-- A number of 32 bits as JSON, and `null` for none. -/
def wordJson : Option UInt32 → Json
  | some n => .number (.integer n.toNat)
  | none => .null

/-- The members of the object for options. -/
def members (o : Options) : Members :=
  [("cyclePolicy", .string o.cyclePolicy.name), ("recordOrigin", .boolean o.recordOrigin),
    ("maxDepth", wordJson o.maxDepth), ("maxNodes", wordJson o.maxNodes)]

/-- The text of options. -/
def text (o : Options) : String := (Json.object o.members).write

end Options

/-- The variant with a given name. -/
def variantNamed {α : Type} (name : α → String) (all : List α) (word : String) :
    Except Problem α :=
  match all.find? (name · = word) with
  | some a => .ok a
  | none => refuse (.unknownVariant word (all.map name))

/-- Reads a variant from a part of a text: its name, or an object with that name and `null`. -/
def readVariant {α : Type} (name : α → String) (all : List α) : Draft → Except Problem α
  | .missing => .error (.fault .cutShort)
  | .string s => do variantNamed name all (← ofFault s.text)
  | .scalar _ _ | .array _ _ => .error (.fault .malformed)
  | .object [] flaw => .error (.fault (flaw.getD .malformed))
  | .object (e :: es) flaw => do
    let a ← variantNamed name all (← ofFault e.name.text)
    match ← Draft.view.layer e.value with
    | .scalar .null => pure ()
    | l => refuse (.wrongType l.found .unit)
    match es with
    | [] => View.finish flaw
    | _ :: _ => .error (.fault .malformed)
    return a

/-- Reads a policy. -/
def CyclePolicy.ofDraft : Draft → Except Problem CyclePolicy := readVariant name all

/-- Reads a policy. -/
def CyclePolicy.ofText : String → Except Problem CyclePolicy := readText ofDraft

/-- Reads a kind on its own. -/
def Kind.ofText : String → Except Problem Kind := readText (readVariant name all)

namespace Options

/-- The fields of options met so far. -/
structure Seen where
  cyclePolicy : Option CyclePolicy
  recordOrigin : Option Bool
  maxDepth : Option (Option UInt32)
  maxNodes : Option (Option UInt32)

/-- No fields. -/
def Seen.none : Seen := ⟨.none, .none, .none, .none⟩

/-- The options that some fields give; the others are as by default. -/
def ofSeen (s : Seen) : Options :=
  ⟨s.cyclePolicy.getD standard.cyclePolicy, s.recordOrigin.getD standard.recordOrigin,
    s.maxDepth.getD standard.maxDepth, s.maxNodes.getD standard.maxNodes⟩

/-- The names of the fields, in the order in which an array gives them. -/
def fieldNames : List String := ["cyclePolicy", "recordOrigin", "maxDepth", "maxNodes"]

/-- Reads one member of the object for options. -/
def Seen.read (s : Seen) (name : String) (d : Draft) : Except Problem Seen := do
  if name = "cyclePolicy" then
    return { s with cyclePolicy := ← View.once name s.cyclePolicy (CyclePolicy.ofDraft d) }
  else if name = "recordOrigin" then
    return { s with recordOrigin := ← View.once name s.recordOrigin (Draft.view.truth d) }
  else if name = "maxDepth" then
    return { s with maxDepth := ← View.once name s.maxDepth (Draft.view.word? d) }
  else if name = "maxNodes" then
    return { s with maxNodes := ← View.once name s.maxNodes (Draft.view.word? d) }
  else
    Draft.view.skip d
    return s

/-- Reads the members of the object for options, the flaw in which they end included. -/
def Seen.readAll : Seen → List (String × Draft) → Option Fault → Except Problem Seen
  | s, [], flaw => do
    View.finish flaw
    return s
  | s, (name, d) :: ms, flaw => do
    let s ← s.read name d
    s.readAll ms flaw

/-- Reads options from an object, or from an array of the fields in order. -/
def ofDraft (d : Draft) : Except Problem Options := do
  match ← Draft.view.layer d with
  | .map ms flaw => return ofSeen (← Seen.none.readAll ms flaw)
  | .sequence ds flaw =>
    let surplus := fieldNames.length < ds.length
    let s ← Seen.none.readAll (fieldNames.zip ds) (if surplus then some .malformed else flaw)
    return ofSeen s
  | l => refuse (.wrongType l.found .options)

/-- Reads options. -/
def ofText : String → Except Problem Options := readText ofDraft

end Options

end TypeGraph
