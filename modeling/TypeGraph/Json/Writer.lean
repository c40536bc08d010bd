import TypeGraph.Json
import TypeGraph.Double.Decimal

/-!
# Writing JSON text

`Json.write` writes a value without blanks, its members in order. A string is written between
quotes; of its characters only the quote, the backslash and the control characters below `U+0020`
are escaped (`escape`).

* `Json.spell` puts the text of a value in front of a text.
-/

namespace TypeGraph

/-- The lower-case hexadecimal digit of a number below 16. -/
def hexDigit (n : Nat) : Char := Nat.digitChar n

/-- How a character is written inside quotes. -/
def escape (c : Char) : List Char :=
  if c = '"' then ['\\', '"']
  else if c = '\\' then ['\\', '\\']
  else if c = '\n' then ['\\', 'n']
  else if c = '\r' then ['\\', 'r']
  else if c = '\t' then ['\\', 't']
  else if c = '\x08' then ['\\', 'b']
  else if c = '\x0c' then ['\\', 'f']
  else if c.toNat < 0x20 then
    ['\\', 'u', '0', '0', hexDigit (c.toNat / 16), hexDigit (c.toNat % 16)]
  else [c]

/-- A text between quotes. -/
def quote (s : String) : List Char := '"' :: s.toList.flatMap escape ++ ['"']

/-- The text of an integer. -/
def intChars (i : Int) : List Char :=
  if i < 0 then '-' :: Nat.toDigits 10 i.natAbs else Nat.toDigits 10 i.natAbs

/-- The text of a number. -/
def Number.chars : Number → List Char
  | integer i => intChars i
  | float d => d.chars

/-- The text of a scalar. -/
def Scalar.chars : Scalar → List Char
  | null => ['n', 'u', 'l', 'l']
  | boolean true => ['t', 'r', 'u', 'e']
  | boolean false => ['f', 'a', 'l', 's', 'e']
  | number n => n.chars
  | string s => quote s

namespace Json

mutual

/-- The text of a value in front of a text. -/
def spell : Json → List Char → List Char
  | scalar s, rest => s.chars ++ rest
  | array [], rest => '[' :: ']' :: rest
  | array (j :: js), rest => '[' :: spell j (spellItems js rest)
  | object [], rest => '{' :: '}' :: rest
  | object ((name, j) :: ms), rest =>
    '{' :: (quote name ++ ':' :: spell j (spellMembers ms rest))

/-- The text of the further items of an array and its end. -/
def spellItems : List Json → List Char → List Char
  | [], rest => ']' :: rest
  | j :: js, rest => ',' :: spell j (spellItems js rest)

/-- The text of the further members of an object and its end. -/
def spellMembers : List (String × Json) → List Char → List Char
  | [], rest => '}' :: rest
  | (name, j) :: ms, rest =>
    ',' :: (quote name ++ ':' :: spell j (spellMembers ms rest))

end

/-- The text of a value. -/
def write (j : Json) : String := String.ofList (j.spell [])

end Json

end TypeGraph
