import TypeGraph.Json
import TypeGraph.Double.Decimal

/-!
# JSON text as far as it is well formed

A `Draft` is what a text spells up to its first flaw: the tree of its values, where a flawed
value holds the `Fault` that a reader meets there. Readers go through a draft in the order of the
text, so the first flaw they meet is the first one in the text.

Some flaws concern only a reader that wants the value (a number beyond the range of doubles, half
of a surrogate pair); one that skips over the value does not mind.

* `Draft.ofChars` reads one value and leaves the rest of the text; after a flaw nothing is left;
* `Draft.toJson` is the value without flaws, up to a limit on nesting;
* `Draft.skip` is what a reader notices that skips the value.
-/

namespace TypeGraph

/-- Why a text is not well formed: it goes wrong somewhere, or it ends too early. -/
inductive Fault where
  | malformed | cutShort
  deriving DecidableEq, Repr

/-- A string of a text: what it reads as, and the flaw that hides its end, if any. -/
structure Quoted where
  text : Except Fault String
  flaw : Option Fault

/-- A member of an object of a text. -/
structure Draft.Entry (α : Type) where
  name : Quoted
  value : α

/-- What a text spells as far as it is well formed. -/
inductive Draft where
  /-- the text ends before the value -/
  | missing
  | string (s : Quoted)
  /-- a scalar that is no string, how it reads, and the flaw seen by who skips it -/
  | scalar (s : Except Fault Scalar) (flaw : Option Fault)
  | array (items : List Draft) (flaw : Option Fault)
  | object (entries : List (Draft.Entry Draft)) (flaw : Option Fault)

/-! ## Blanks, words and digits -/

/-- The blanks between the parts of a text. -/
def isBlank (c : Char) : Bool := c = ' ' || c = '\t' || c = '\n' || c = '\r'

/-- A text without the blanks in front. -/
def skipBlanks (cs : List Char) : List Char := cs.dropWhile isBlank

/-- Takes the rest of a word off a text. -/
def dropWord : List Char → List Char → Except Fault (List Char)
  | [], cs => .ok cs
  | _ :: _, [] => .error .cutShort
  | w :: ws, c :: cs => if c = w then dropWord ws cs else .error .malformed

/-- The value of a hexadecimal digit. -/
def hexValue? (c : Char) : Option Nat :=
  if c.isDigit then some (c.toNat - '0'.toNat)
  else if 'a' ≤ c ∧ c ≤ 'f' then some (c.toNat - 'a'.toNat + 10)
  else if 'A' ≤ c ∧ c ≤ 'F' then some (c.toNat - 'A'.toNat + 10)
  else none

/-- The number that decimal digits spell. -/
def digitsValue (ds : List Char) : Nat := ds.foldl (fun n c => n * 10 + (c.toNat - '0'.toNat)) 0

/-! ## Strings -/

/-- A part of a string as it stands in a text: a character, or a UTF-16 unit in hexadecimal. -/
inductive Piece where
  | char (c : Char)
  | unit (n : Nat)
  deriving DecidableEq, Repr

/-- The character that a letter after a backslash stands for. -/
def unescape? : Char → Option Char
  | '"' => some '"'
  | '\\' => some '\\'
  | '/' => some '/'
  | 'b' => some '\x08'
  | 'f' => some '\x0c'
  | 'n' => some '\n'
  | 'r' => some '\r'
  | 't' => some '\t'
  | _ => none

/-- The number that four hexadecimal digits spell. -/
def hexUnit? (a b c d : Char) : Option Nat := do
  let a ← hexValue? a
  let b ← hexValue? b
  let c ← hexValue? c
  let d ← hexValue? d
  return ((a * 16 + b) * 16 + c) * 16 + d

/-- The flaw of a text that goes on with fewer than four characters where four hexadecimal
digits should stand: it is cut short only if it also has fewer than four bytes. -/
def shortUnit (cs : List Char) : Fault :=
  if cs.foldr (fun c n => c.utf8Size + n) 0 < 4 then .cutShort else .malformed

/-- The pieces of a string up to its closing quote or its first flaw, and what follows it. -/
def pieces : List Char → List Piece × Option Fault × List Char
  | [] => ([], some .cutShort, [])
  | '"' :: cs => ([], none, cs)
  | '\\' :: 'u' :: a :: b :: c :: d :: cs =>
    match hexUnit? a b c d with
    | some n => let (ps, rest) := pieces cs; (.unit n :: ps, rest)
    | none => ([], some .malformed, [])
  | '\\' :: 'u' :: cs => ([], some (shortUnit cs), [])
  | ['\\'] => ([], some .cutShort, [])
  | '\\' :: c :: cs =>
    match unescape? c with
    | some e => let (ps, rest) := pieces cs; (.char e :: ps, rest)
    | none => ([], some .malformed, [])
  | c :: cs =>
    if c.toNat < 0x20 then ([], some .malformed, [])
    else let (ps, rest) := pieces cs; (.char c :: ps, rest)

/-- Whether a unit is the first half of a surrogate pair. -/
def isLeading (n : Nat) : Bool := 0xD800 ≤ n && n < 0xDC00

/-- Whether a unit is the second half of a surrogate pair. -/
def isTrailing (n : Nat) : Bool := 0xDC00 ≤ n && n < 0xE000

/-- The characters of a string that ends with its pieces, or in a flaw. Half a surrogate pair is
no character. -/
def joinPieces (flaw : Option Fault) : List Piece → Except Fault (List Char)
  | [] =>
    match flaw with
    | none => .ok []
    | some f => .error f
  | .char c :: ps => do return c :: (← joinPieces flaw ps)
  | .unit n :: ps =>
    if isTrailing n then .error .malformed
    else if isLeading n then
      match ps with
      | .unit m :: ps =>
        if isTrailing m then do
          return Char.ofNat ((n - 0xD800) * 0x400 + (m - 0xDC00) + 0x10000) ::
            (← joinPieces flaw ps)
        else .error .malformed
      | .char _ :: _ => .error .malformed
      | [] => .error (flaw.getD .malformed)
    else do return Char.ofNat n :: (← joinPieces flaw ps)

/-- Reads a string whose opening quote is taken off. -/
def Quoted.ofChars (cs : List Char) : Quoted × List Char :=
  let (ps, flaw, rest) := pieces cs
  (⟨(joinPieces flaw ps).map String.ofList, flaw⟩, rest)

/-! ## Numbers -/

/-- A number as it is written. -/
structure Numeral where
  negative : Bool
  whole : List Char
  fraction : List Char
  exponent : Int
  /-- without fraction and exponent -/
  plain : Bool

/-- The number that a numeral spells: an integer if it is plain and fits 64 bits, otherwise a
double, which must be finite. It is the nearest one, however many digits there are. A reader that
rounds more than once on the way differs from this in the last place of some numbers, and refuses
some that are next to the largest finite one. -/
def Numeral.value (n : Numeral) : Except Fault Number :=
  let whole := digitsValue n.whole
  let float :=
    match Double.ofDecimal? n.negative
      ⟨digitsValue (n.whole ++ n.fraction), n.exponent - n.fraction.length⟩ with
    | some d => .ok (.float d)
    | none => .error .malformed
  if !n.plain then float
  else if n.negative then
    if 0 < whole ∧ whole ≤ Nat.pow 2 63 then .ok (.integer (-whole)) else float
  else if whole < Nat.pow 2 64 then .ok (.integer whole) else float

/-- The digits that must come next, and what follows them. If the text ends instead, a reader
finds it cut short and who skips finds it malformed. -/
def someDigits (cs : List Char) : Except (Fault × Fault) (List Char × List Char) :=
  match cs.takeWhile Char.isDigit, cs with
  | [], [] => .error (.cutShort, .malformed)
  | [], _ :: _ => .error (.malformed, .malformed)
  | ds, _ => .ok (ds, cs.dropWhile Char.isDigit)

/-- Reads the digits before the point; a `0` in front must be the only one. -/
def wholeDigits (cs : List Char) : Except (Fault × Fault) (List Char × List Char) := do
  let (ds, rest) ← someDigits cs
  match ds with
  | '0' :: _ :: _ => .error (.malformed, .malformed)
  | _ => return (ds, rest)

/-- Reads a point and the digits behind it, if they are there. -/
def fractionDigits (cs : List Char) : Except (Fault × Fault) (Option (List Char) × List Char) :=
  match cs with
  | '.' :: cs => do
    let (ds, rest) ← someDigits cs
    return (some ds, rest)
  | cs => return (none, cs)

/-- Takes the sign of an exponent off a text. -/
def exponentSign : List Char → Bool × List Char
  | '+' :: cs => (false, cs)
  | '-' :: cs => (true, cs)
  | cs => (false, cs)

/-- Reads an exponent, if it is there. -/
def exponentDigits (cs : List Char) : Except (Fault × Fault) (Option Int × List Char) :=
  match cs with
  | c :: cs =>
    if c = 'e' ∨ c = 'E' then do
      let (negative, cs) := exponentSign cs
      let (ds, rest) ← someDigits cs
      let size : Int := digitsValue ds
      return (some (if negative then -size else size), rest)
    else return (none, c :: cs)
  | [] => return (none, [])

/-- Reads a number whose sign is taken off. -/
def Numeral.ofChars (negative : Bool) (cs : List Char) :
    Except (Fault × Fault) (Numeral × List Char) := do
  let (whole, cs) ← wholeDigits cs
  let (fraction, cs) ← fractionDigits cs
  let (exponent, cs) ← exponentDigits cs
  return (⟨negative, whole, fraction.getD [], exponent.getD 0, fraction.isNone && exponent.isNone⟩,
    cs)

/-- How many arrays and objects may nest in each other in what a reader keeps. -/
def maxNesting : Nat := 127

namespace Draft

/-! ## Values -/

/-- A value that is flawed from its start on. -/
def flawed (f : Fault) : Draft := scalar (.error f) (some f)

/-- Reads a number whose sign is taken off. -/
def numberOfChars (negative : Bool) (cs : List Char) : Draft × List Char :=
  match Numeral.ofChars negative cs with
  | .ok (n, rest) => (scalar (n.value.map .number) none, rest)
  | .error (read, skipped) => (scalar (.error read) (some skipped), [])

/-- Reads the rest of a word that stands for a scalar. -/
def wordOfChars (rest : List Char) (s : Scalar) (cs : List Char) : Draft × List Char :=
  match dropWord rest cs with
  | .ok cs => (scalar (.ok s) none, cs)
  | .error f => (flawed f, [])

/-- Reads the items of an array up to its end, the first of them at once. `value` reads one, and
there are at most `room` of them. -/
def itemsOfChars (value : List Char → Draft × List Char) :
    (room : Nat) → List Char → List Draft × Option Fault × List Char
  | 0, _ => ([], some .malformed, [])
  | room + 1, cs =>
    let (item, cs) := value cs
    match skipBlanks cs with
    | ',' :: cs =>
      let (items, rest) := itemsOfChars value room cs
      (item :: items, rest)
    | ']' :: cs => ([item], none, cs)
    | _ :: _ => ([item], some .malformed, [])
    | [] => ([item], some .cutShort, [])

/-- Reads a member of an object: its name, a colon and its value. -/
def entryOfChars (value : List Char → Draft × List Char) (cs : List Char) :
    Entry Draft × List Char :=
  match skipBlanks cs with
  | '"' :: cs =>
    let (name, cs) := Quoted.ofChars cs
    match skipBlanks cs with
    | ':' :: cs =>
      let (d, cs) := value cs
      (⟨name, d⟩, cs)
    | _ :: _ => (⟨name, flawed .malformed⟩, [])
    | [] => (⟨name, missing⟩, [])
  | [] => (⟨⟨.error .cutShort, some .cutShort⟩, missing⟩, [])
  | _ :: _ => (⟨⟨.error .malformed, some .malformed⟩, flawed .malformed⟩, [])

/-- Reads the members of an object up to its end, the first of them at once. `value` reads the
value of one, and there are at most `room` of them. -/
def entriesOfChars (value : List Char → Draft × List Char) :
    (room : Nat) → List Char → List (Entry Draft) × Option Fault × List Char
  | 0, _ => ([], some .malformed, [])
  | room + 1, cs =>
    let (entry, cs) := entryOfChars value cs
    match skipBlanks cs with
    | ',' :: cs =>
      let (entries, rest) := entriesOfChars value room cs
      (entry :: entries, rest)
    | '}' :: cs => ([entry], none, cs)
    | _ :: _ => ([entry], some .malformed, [])
    | [] => ([entry], some .cutShort, [])

/-- Reads one value; arrays and objects nest at most `levels` deep, and none has more than `room`
parts. -/
def valueOfChars (room : Nat) : (levels : Nat) → List Char → Draft × List Char
  | levels, cs =>
    match skipBlanks cs with
    | [] => (missing, [])
    | '"' :: cs => let (s, rest) := Quoted.ofChars cs; (string s, rest)
    | 'n' :: cs => wordOfChars ['u', 'l', 'l'] .null cs
    | 't' :: cs => wordOfChars ['r', 'u', 'e'] (.boolean true) cs
    | 'f' :: cs => wordOfChars ['a', 'l', 's', 'e'] (.boolean false) cs
    | '-' :: cs => numberOfChars true cs
    | '[' :: cs =>
      match levels with
      | 0 => (flawed .malformed, [])
      | levels + 1 =>
        match skipBlanks cs with
        | ']' :: cs => (array [] none, cs)
        | [] => (array [] (some .cutShort), [])
        | cs =>
          let (items, flaw, rest) := itemsOfChars (valueOfChars room levels) room cs
          (array items flaw, rest)
    | '{' :: cs =>
      match levels with
      | 0 => (flawed .malformed, [])
      | levels + 1 =>
        match skipBlanks cs with
        | '}' :: cs => (object [] none, cs)
        | [] => (object [] (some .cutShort), [])
        | cs =>
          let (entries, flaw, rest) := entriesOfChars (valueOfChars room levels) room cs
          (object entries flaw, rest)
    | c :: cs => if c.isDigit then numberOfChars false (c :: cs) else (flawed .malformed, [])

/-- Reads the value that a text starts with, and gives the rest of the text. -/
def ofChars (cs : List Char) : Draft × List Char := valueOfChars cs.length cs.length cs

/-! ## Readings -/

/-- The end of an array or object that must not be flawed. -/
def close (flaw : Option Fault) : Except Fault Unit :=
  match flaw with
  | none => .ok ()
  | some f => .error f

/-- The value, if it is well formed and arrays and objects nest at most `levels` deep. -/
def toJson : (levels : Nat) → Draft → Except Fault Json
  | _, missing => .error .cutShort
  | _, string s => do return .string (← s.text)
  | _, scalar s _ => do return .scalar (← s)
  | 0, array _ _ | 0, object _ _ => .error .malformed
  | levels + 1, array items flaw => do
    let js ← items.mapM (toJson levels)
    close flaw
    return .array js
  | levels + 1, object entries flaw => do
    let ms ← entries.mapM fun e => do
      let name ← e.name.text
      return (name, ← toJson levels e.value)
    close flaw
    return .object ms

mutual

/-- What a reader notices that skips the value. -/
def skip : Draft → Except Fault Unit
  | missing => .error .cutShort
  | string s => close s.flaw
  | scalar _ flaw => close flaw
  | array items flaw => do
    skipItems items
    close flaw
  | object entries flaw => do
    skipEntries entries
    close flaw

/-- What a reader notices that skips the items of an array. -/
def skipItems : List Draft → Except Fault Unit
  | [] => .ok ()
  | d :: ds => do
    skip d
    skipItems ds

/-- What a reader notices that skips the members of an object. -/
def skipEntries : List (Entry Draft) → Except Fault Unit
  | [] => .ok ()
  | ⟨name, d⟩ :: es => do
    close name.flaw
    skip d
    skipEntries es

end

end Draft

end TypeGraph
