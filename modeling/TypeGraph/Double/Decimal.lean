import TypeGraph.Double

/-!
# Decimal text of doubles

* `Double.ofDecimal?` is the double nearest to a decimal number, if that is finite;
* `Double.shortest` is the decimal number with the fewest digits that reads back as the double,
  and of those the one nearest to it;
* `Double.chars` writes it: positionally for exponents from `-5` to `15`, otherwise with an
  exponent that always has a sign.
-/

namespace TypeGraph

/-- The number `coefficient * 10 ^ exponent`. -/
structure Decimal where
  coefficient : Nat
  exponent : Int
  deriving DecidableEq, Repr

namespace Decimal

/-- The number of digits of a natural number; `0` has one. -/
def digitCount (n : Nat) : Nat := (Nat.toDigits 10 n).length

/-- The number lies below `10 ^ order`, and a positive one not below a tenth of it. -/
def order (d : Decimal) : Int := digitCount d.coefficient + d.exponent

/-- The magnitude of the nearest double; `infinity` or more if that is not finite. -/
def magnitude (d : Decimal) : Nat :=
  if d.coefficient = 0 then 0
  else if 310 < d.order then Double.infinity
  else if d.order < -330 then 0
  else if 0 ≤ d.exponent then
    Double.nearest (d.coefficient * Nat.pow 10 d.exponent.toNat * Double.unit) 1
  else Double.nearest (d.coefficient * Double.unit) (Nat.pow 10 (-d.exponent).toNat)

end Decimal

namespace Double

/-- The double nearest to a decimal number, if that is finite. All digits count, and of two doubles
that are equally near the even one is taken. -/
def ofDecimal? (negative : Bool) (d : Decimal) : Option Double :=
  if d.magnitude < infinity then some (ofMagnitude negative d.magnitude) else none

/-! ## The shortest decimal -/

/-- The absolute value of a finite number, to its last digit. -/
def exact (d : Double) : Decimal :=
  if 1074 ≤ d.shift then ⟨d.significand * Nat.pow 2 (d.shift - 1074), 0⟩
  else ⟨d.significand * Nat.pow 5 (1074 - d.shift), -(1074 - d.shift : Nat)⟩

/-- A decimal number of which `dropped` digits are cut off reads back as a double, or its neighbour
on the other side of the cut does: the nearer one of those that do. -/
def rounded? (magnitude : Nat) (number : Decimal) (dropped : Nat) : Option Decimal :=
  let step := Nat.pow 10 dropped
  let low : Decimal := ⟨number.coefficient / step, number.exponent + dropped⟩
  let high : Decimal := ⟨low.coefficient + 1, low.exponent⟩
  let excess := number.coefficient % step
  if low.magnitude = magnitude then
    if (step < 2 * excess ∨ (step = 2 * excess ∧ low.coefficient % 2 = 1)) ∧
        high.magnitude = magnitude then some high
    else some low
  else if 0 < excess ∧ high.magnitude = magnitude then some high
  else none

/-- The decimal with the fewest digits that reads back as the absolute value of a finite number,
and of those the nearest. -/
def shortest (d : Double) : Decimal :=
  let number := d.exact
  let size := Decimal.digitCount number.coefficient
  ((List.range size).findSome? fun n => rounded? d.magnitude number (size - (n + 1))).getD number

/-! ## Layout -/

/-- The digits without the zeros at their end. -/
def trimZeros (digits : List Char) : List Char :=
  (digits.reverse.dropWhile (· = '0')).reverse

/-- A number whose leading digit has the given place: `digits = [1, 2]` and `place = 3` is
`1.2e3`. Places from `-5` to `15` are written positionally. -/
def layout (digits : List Char) (place : Int) : List Char :=
  if place < -5 ∨ 16 ≤ place then
    let fraction := if digits.length ≤ 1 then [] else '.' :: digits.drop 1
    let sign := if place < 0 then '-' else '+'
    digits.take 1 ++ fraction ++ 'e' :: sign :: Nat.toDigits 10 place.natAbs
  else if place < 0 then
    '0' :: '.' :: (List.replicate (-place - 1).toNat '0' ++ digits)
  else
    let whole := place.toNat + 1
    if digits.length ≤ whole then
      digits ++ List.replicate (whole - digits.length) '0' ++ ['.', '0']
    else digits.take whole ++ '.' :: digits.drop whole

/-- The text of a finite number. -/
def chars (d : Double) : List Char :=
  let unsigned :=
    if d.isZero then ['0', '.', '0']
    else
      let short := d.shortest
      layout (trimZeros (Nat.toDigits 10 short.coefficient)) (short.order - 1)
  if d.isNegative then '-' :: unsigned else unsigned

/-- The text of a finite number. -/
def text (d : Double) : String := String.ofList d.chars

end Double

end TypeGraph
