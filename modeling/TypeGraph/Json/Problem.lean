import TypeGraph.Json.Draft
import TypeGraph.Json.Writer
import TypeGraph.Kind
import TypeGraph.Text.Visible

/-!
# Why a document is refused

* `Mismatch`: a well-formed document that does not say what its reader expects, with the wording
  in `Mismatch.message`;
* `Problem`: a mismatch or a flaw of the text.
-/

namespace TypeGraph

/-- What a reader found in the place of what it expected. -/
inductive Found where
  | scalar (s : Scalar)
  | sequence
  | map

/-- What a reader expected. -/
inductive Expected where
  | string | boolean | number | word | sequence | unit | variant
  | model | property | signature | bigint | options

/-- How a well-formed document misses what its reader expects. -/
inductive Mismatch where
  | missingField (name : String)
  | duplicateField (name : String)
  | wrongType (found : Found) (expected : Expected)
  | unknownVariant (name : String) (known : List String)
  | variantOutOfRange (index : Int)
  | wordOutOfRange (value : Int)
  | notAKey (found : Kind)
  /-- a sequence that ends before the second element of a record -/
  | tooShort (length : Nat) (expected : Expected)
  /-- a sequence that goes on after the second element of a record -/
  | tooLong (length : Nat)

/-- Why a document is refused. -/
inductive Problem where
  | fault (f : Fault)
  | mismatch (m : Mismatch)

/-- A text between backquotes. -/
def backquoted (s : String) : String := "`" ++ s ++ "`"

/-- The decimal digits of a number. -/
def decimal (n : Nat) : String := String.ofList (Nat.toDigits 10 n)

/-- The words for what was found. -/
def Found.words : Found → String
  | scalar .null => "null"
  | scalar (.boolean b) => "boolean " ++ backquoted (if b then "true" else "false")
  | scalar (.number (.integer i)) => "integer " ++ backquoted (String.ofList (intChars i))
  | scalar (.number (.float d)) => "floating point " ++ backquoted d.text
  | scalar (.string s) => "string " ++ showText s
  | sequence => "sequence"
  | map => "map"

/-- The words for what was expected. -/
def Expected.words : Expected → String
  | string => "a string"
  | boolean => "a boolean"
  | number => "f64"
  | word => "u32"
  | sequence => "a sequence"
  | unit => "unit"
  | variant => "variant identifier"
  | model => "struct TypeModel"
  | property => "struct PropertyModel"
  | signature => "struct IndexModel"
  | bigint => "struct PseudoBigInt"
  | options => "struct CompilerOptions"

/-- The words for a list of at least two variants. -/
def variantWords (known : List String) : String :=
  match known with
  | [a, b] => backquoted a ++ " or " ++ backquoted b
  | known => "one of " ++ ", ".intercalate (known.map backquoted)

/-- The message for a mismatch. -/
def Mismatch.message : Mismatch → String
  | missingField name => "missing field " ++ backquoted name
  | duplicateField name => "duplicate field " ++ backquoted name
  | wrongType found expected => "invalid type: " ++ found.words ++ ", expected " ++ expected.words
  | unknownVariant name known =>
    "unknown variant " ++ backquoted name ++ ", expected " ++ variantWords known
  | variantOutOfRange index =>
    "invalid value: integer " ++ backquoted (String.ofList (intChars index)) ++
      ", expected variant index 0 <= i < 32"
  | wordOutOfRange value =>
    "invalid value: integer " ++ backquoted (String.ofList (intChars value)) ++ ", expected u32"
  | notAKey found =>
    "index key type must be string, number or their union, found " ++ backquoted found.name
  | tooShort length expected =>
    "invalid length " ++ decimal length ++ ", expected " ++ expected.words ++ " with 2 elements"
  | tooLong length =>
    "invalid length " ++ decimal length ++ ", expected 2 elements in sequence"

/-- A reading that goes on while the text is not flawed. -/
def ofFault {α : Type} : Except Fault α → Except Problem α
  | .ok a => .ok a
  | .error f => .error (.fault f)

/-- A reading that stops at a mismatch. -/
def refuse {α : Type} (m : Mismatch) : Except Problem α := .error (.mismatch m)

end TypeGraph
