/-!
# Bigint literals

A bigint literal is kept as written: a sign and base-10 digits of any length.

* `BigIntLiteral.parse?` reads an optional `-`, digits and an optional final `n`;
* `BigIntLiteral.text` writes it back, without the `n`.
-/

namespace TypeGraph

/-- A signed integer of any size, as its base-10 digits. -/
structure BigIntLiteral where
  negative : Bool
  digits : String
  deriving DecidableEq, Repr

namespace BigIntLiteral

/-- One leading minus sign is taken off. -/
def splitSign : List Char → Bool × List Char
  | '-' :: cs => (true, cs)
  | cs => (false, cs)

/-- One final `n` is taken off. -/
def dropSuffix (cs : List Char) : List Char :=
  if cs.getLast? = some 'n' then cs.dropLast else cs

/-- Reads `-`, digits and `n`, of which only the digits must be there. -/
def parse? (text : String) : Option BigIntLiteral :=
  let (negative, unsigned) := splitSign text.toList
  let digits := dropSuffix unsigned
  if digits ≠ [] ∧ digits.all Char.isDigit then some ⟨negative, String.ofList digits⟩ else none

/-- Whether no digit but `0` occurs. -/
def isZero (b : BigIntLiteral) : Bool := b.digits.toList.all (· = '0')

/-- The sign and the digits. -/
def text (b : BigIntLiteral) : String := (if b.negative then "-" else "") ++ b.digits

end BigIntLiteral

end TypeGraph
