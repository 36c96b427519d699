import Lox.Number.Decimal

/-!
# Numbers as text

Three texts of a double, and one reader.

* `printed` is what a program's output shows: whole numbers below `10¹⁵` as integers, all others
  by their shortest digits, never with an exponent.
* `inToken` is the text in a token listing, where whole numbers keep a `.0`.
* `inJson` is the text in a JSON document, which changes to an exponent outside `10⁻⁵ ≤ x < 10¹⁶`.
* `read` is the inverse: the double nearest to a literal of digits with at most one point.
-/

namespace Lox.Number

/-- The text of a magnitude that is not written as an integer: shortest digits, or the name of
infinity. -/
def positional (bits : Nat) : List Char :=
  if bits = 0 then ['0']
  else if bits < Binary64.infinityBits then (Decimal.shortest .up bits).positional
  else "inf".toList

/-- A minus sign in front if `negative`. -/
def signed (negative : Bool) (text : List Char) : List Char :=
  if negative then '-' :: text else text

/-- The whole number below `limit` that a magnitude stands for, if any. -/
def wholeBelow? (limit bits : Nat) : Option Nat :=
  (Binary64.wholePart? bits).filter (· < limit)

/-- The text that a print statement writes. -/
def printed (x : Float) : List Char :=
  if x.isNaN then "NaN".toList
  else
    let bits := Binary64.magnitudeBits x
    signed (Binary64.isNegative x) <|
      match wholeBelow? (Nat.pow 10 15) bits with
      | some n => Nat.toDigits 10 n
      | none => positional bits

/-- The text in a token listing.  A whole number below `2⁶³` keeps one decimal place, and zero has
no sign. -/
def inToken (x : Float) : List Char :=
  if x.isNaN then "NaN".toList
  else
    let bits := Binary64.magnitudeBits x
    match wholeBelow? (Nat.pow 2 63) bits with
    | some n => signed (Binary64.isNegative x && n != 0) (Nat.toDigits 10 n ++ ['.', '0'])
    | none => signed (Binary64.isNegative x) (positional bits)

/-- The JSON text of a positive decimal: positional while the point is at most 16 places to the
right and less than 5 places to the left of the first digit. -/
def jsonDecimal (d : Decimal) : List Char :=
  let point := d.exponent + d.digits.length
  if -5 < point && point ≤ 16 then
    d.positional ++ (if 0 ≤ d.exponent then ['.', '0'] else [])
  else d.scientific

/-- The text in a JSON document, which has no word for infinities and for undefined numbers. -/
def inJson (x : Float) : List Char :=
  let bits := Binary64.magnitudeBits x
  if x.isNaN || Binary64.infinityBits ≤ bits then "null".toList
  else signed (Binary64.isNegative x) <|
    if bits = 0 then "0.0".toList else jsonDecimal (Decimal.shortest .even bits)

/-- The sixteen hexadecimal digits of a number's bit pattern; undefined numbers are all alike. -/
def bitsText (x : Float) : String :=
  if x.isNaN then "nan"
  else
    let digits := Nat.toDigits 16 x.toBits.toNat
    String.ofList (List.replicate (16 - digits.length) '0' ++ digits)

/-- The double nearest to the literal `whole.fraction`, both given as digits. -/
def ofDigits (whole fraction : List Char) : Float :=
  Binary64.ofRatio (Nat.ofDigitChars 10 (whole ++ fraction) 0) (Nat.pow 10 fraction.length)

/-- The double nearest to a literal: digits, and after at most one point more digits. -/
def read (literal : List Char) : Float :=
  ofDigits (literal.takeWhile (· != '.')) ((literal.dropWhile (· != '.')).drop 1)

end Lox.Number
