/-!
# Double-precision numbers

A `Double` is the bit pattern of an IEEE 754 double-precision number. Everything about its value
is exact arithmetic on natural numbers: every finite magnitude is a whole number of ticks of
`2⁻¹⁰⁷⁴`.

* `Double.ticks`: the magnitude of a finite number;
* `Double.same`: equality of numbers, where `0` and `-0` agree and a NaN agrees with nothing;
* `Double.integer?`: the whole number that a double stands for, if it does;
* `nearest`: the magnitude nearest to a quotient of ticks, ties to the even one.
-/

namespace TypeGraph

/-- The bit pattern of a double-precision number. -/
structure Double where
  bits : UInt64
  deriving DecidableEq, Repr

namespace Double

/-- The bits below the sign, as a number. -/
def magnitude (d : Double) : Nat := d.bits.toNat % Nat.pow 2 63

/-- Whether the sign bit is set. -/
def isNegative (d : Double) : Bool := Nat.pow 2 63 ≤ d.bits.toNat

/-- The magnitude of the infinities; that of a NaN is larger. -/
def infinity : Nat := 2047 * Nat.pow 2 52

/-- Whether this is a number, neither infinite nor a NaN. -/
def isFinite (d : Double) : Bool := d.magnitude < infinity

/-- Whether this is not a number. -/
def isNaN (d : Double) : Bool := infinity < d.magnitude

/-- Whether this is one of the two zeros. -/
def isZero (d : Double) : Bool := d.magnitude = 0

/-- The double with this sign and magnitude. -/
def ofMagnitude (negative : Bool) (magnitude : Nat) : Double :=
  ⟨UInt64.ofNat (magnitude + if negative then Nat.pow 2 63 else 0)⟩

/-- Equality of numbers: the zeros agree, and a NaN agrees with nothing. -/
def same (a b : Double) : Bool :=
  !a.isNaN && !b.isNaN && (a.bits = b.bits || (a.isZero && b.isZero))

/-! ## Values -/

/-- Ticks in one. -/
def unit : Nat := Nat.pow 2 1074

/-- The leading bits of a finite number, as a whole number. -/
def significand (d : Double) : Nat :=
  let fraction := d.magnitude % Nat.pow 2 52
  if d.magnitude / Nat.pow 2 52 = 0 then fraction else Nat.pow 2 52 + fraction

/-- How many binary places of ticks follow the leading bits. -/
def shift (d : Double) : Nat := d.magnitude / Nat.pow 2 52 - 1

/-- The absolute value of a finite number, in ticks. -/
def ticks (d : Double) : Nat := d.significand * Nat.pow 2 d.shift

/-- The whole number that a finite double stands for, if it is whole. -/
def integer? (d : Double) : Option Int :=
  if d.isFinite ∧ d.ticks % unit = 0 then
    let n : Nat := d.ticks / unit
    some (if d.isNegative then -n else n)
  else none

/-! ## Rounding -/

/-- `a / b` rounded to a whole number, ties to the even one. -/
def roundHalfEven (a b : Nat) : Nat :=
  let q := a / b
  let r := a % b
  if 2 * r < b ∨ (2 * r = b ∧ q % 2 = 0) then q else q + 1

/-- The magnitude nearest to `a / b` ticks, ties to the even one. From half a tick beyond the
largest finite magnitude on it is `infinity` or more. -/
def nearest (a b : Nat) : Nat :=
  let shift := (a / b).log2 - 52
  shift * Nat.pow 2 52 + roundHalfEven a (b * Nat.pow 2 shift)

/-- The double nearest to a whole number that is small enough to have a finite one. -/
def ofInt (i : Int) : Double :=
  ofMagnitude (i < 0) (nearest (i.natAbs * unit) 1)

end Double

end TypeGraph
