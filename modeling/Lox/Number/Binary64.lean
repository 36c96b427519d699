/-!
# Doubles as numbered points

A nonnegative finite double is a whole number of `2⁻¹⁰⁷⁴`, the least positive one.  Its bit pattern,
read as a natural number, is its place in increasing order, and the pattern after the greatest
finite one is that of infinity.  Everything exact about doubles is therefore arithmetic on two
natural numbers:

* `units b` is the value of the pattern `b`, counted in `2⁻¹⁰⁷⁴`;
* `nearest n d` is the pattern whose value is nearest to the ratio `n / d`, an exact half going to
  the even pattern.

`nearest` is the only rounding of the library; reading a number and choosing the digits to print
both go through it.
-/

namespace Lox.Binary64

/-- How many units make one: the least positive double is `1 / scale`. -/
def scale : Nat := Nat.pow 2 1074

/-- The bit in front of the fraction, which a pattern leaves out, and the distance of two patterns
whose exponents differ by one. -/
def implicitBit : Nat := Nat.pow 2 52

/-- The sign bit's place value. -/
def signBit : Nat := Nat.pow 2 63

/-- The bit pattern of positive infinity. -/
def infinityBits : Nat := 2047 * implicitBit

/-- The value of a nonnegative bit pattern, counted in units of `1 / scale`.  The upper bits hold
the exponent; exponent zero has no implicit leading bit. -/
def units (bits : Nat) : Nat :=
  let exponent := bits / implicitBit
  let fraction := bits % implicitBit
  if exponent = 0 then fraction else (implicitBit + fraction) * Nat.pow 2 (exponent - 1)

/-- The bit pattern of the double nearest to `num / den`.  With `shift` binary digits of the
quotient dropped there are at most 53 left, and `shift · 2⁵² + quotient` is the pattern: the
quotient's leading bit raises the exponent field by one, so a carry out of the fraction needs no
case of its own. -/
def nearest (num den : Nat) : Nat :=
  let scaled := num * scale
  let shift := (scaled / den).log2 - 52
  let step := den * Nat.pow 2 shift
  let quotient := scaled / step
  let remainder := scaled % step
  let roundsUp := step < 2 * remainder || (2 * remainder == step && quotient % 2 == 1)
  min (shift * implicitBit + quotient + roundsUp.toNat) infinityBits

/-- The double nearest to `num / den`. -/
def ofRatio (num den : Nat) : Float :=
  Float.ofBits (UInt64.ofNat (nearest num den))

/-- The sign bit: set for negative numbers and for negative zero. -/
def isNegative (x : Float) : Bool :=
  signBit ≤ x.toBits.toNat

/-- The bit pattern with the sign bit cleared. -/
def magnitudeBits (x : Float) : Nat :=
  x.toBits.toNat % signBit

/-- The whole number that a bit pattern stands for, if it stands for one. -/
def wholePart? (bits : Nat) : Option Nat :=
  if bits < infinityBits && units bits % scale == 0 then some (units bits / scale) else none

end Lox.Binary64
