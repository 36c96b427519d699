import Lox.Number.Binary64

/-!
# Shortest decimals

A decimal is a significand and a power of ten.  `shortest` gives the decimal that stands for a
double in print: of all decimals that read back as this double it has the fewest digits, and of
those the nearest to the double's exact value.  The two neighbours of the exact value on the grid of
`n`-digit decimals are tried for `n = 0, 1, …, 17`; if any decimal of `n` digits reads back, one
of these two does.  The grid for `n = 0` holds the next power of ten above the value, a decimal of
one digit.
-/

namespace Lox

/-- The number `significand · 10 ^ exponent`. -/
structure Decimal where
  significand : Nat
  exponent : Int
  deriving DecidableEq, Repr

namespace Decimal

/-- The bit pattern that a decimal reads as. -/
def bits (d : Decimal) : Nat :=
  if 0 ≤ d.exponent then Binary64.nearest (d.significand * Nat.pow 10 d.exponent.toNat) 1
  else Binary64.nearest d.significand (Nat.pow 10 (-d.exponent).toNat)

/-- The digits of the significand. -/
def digits (d : Decimal) : List Char :=
  Nat.toDigits 10 d.significand

/-- Which of two decimals to take when both read back and both are equally near. -/
inductive Tie
  | up
  | even
  deriving DecidableEq, Repr

/-- The exponent `k` with `10 ^ (k - 1) ≤ units / scale < 10 ^ k`, for positive `units`. -/
def pointPosition (units : Nat) : Int :=
  if Binary64.scale ≤ units then (Nat.toDigits 10 (units / Binary64.scale)).length
  else 1 - (Nat.toDigits 10 ((Binary64.scale - 1) / units)).length

/-- The exact value `units / scale`, written out in full. -/
def exact (units : Nat) : Decimal :=
  ⟨units * Nat.pow 5 1074, -1074⟩

/-- The better of the two neighbours of `num / den` on the grid of step `10 ^ exponent`, if one of
them reads as `bits`.  Here `num / den` is the exact value in steps of that grid. -/
def nearGrid? (tie : Tie) (bits num den : Nat) (exponent : Int) : Option Decimal :=
  let below : Decimal := ⟨num / den, exponent⟩
  let above : Decimal := ⟨num / den + 1, exponent⟩
  let remainder := num % den
  match decide (below.bits = bits), decide (above.bits = bits) with
  | false, false => none
  | true, false => some below
  | false, true => some above
  | true, true =>
    if 2 * remainder < den then some below
    else if den < 2 * remainder then some above
    else match tie with
      | .up => some above
      | .even => if below.significand % 2 = 0 then some below else some above

/-- The better of the two neighbours of the value of `bits` on the grid of step `10 ^ exponent`, if
one of them reads as `bits`. -/
def onGrid? (tie : Tie) (bits : Nat) (exponent : Int) : Option Decimal :=
  let units := Binary64.units bits
  if 0 ≤ exponent then
    nearGrid? tie bits units (Binary64.scale * Nat.pow 10 exponent.toNat) exponent
  else nearGrid? tie bits (units * Nat.pow 10 (-exponent).toNat) Binary64.scale exponent

/-- Tries grids of more and more digits, the `remaining` ones from `count` digits on. -/
def search (tie : Tie) (bits : Nat) (point : Int) : (remaining count : Nat) → Decimal
  | 0, _ => exact (Binary64.units bits)
  | remaining + 1, count =>
    match onGrid? tie bits (point - count) with
    | some d => d
    | none => search tie bits point remaining (count + 1)

/-- The shortest decimal that reads as the positive finite pattern `bits`. -/
def shortest (tie : Tie) (bits : Nat) : Decimal :=
  search tie bits (pointPosition (Binary64.units bits)) 18 0

/-! ## Layouts -/

/-- Digits with a point and zeros where they belong, and never an exponent. -/
def positional (d : Decimal) : List Char :=
  let digits := d.digits
  if 0 ≤ d.exponent then digits ++ List.replicate d.exponent.toNat '0'
  else
    let places := (-d.exponent).toNat
    if places < digits.length then
      digits.take (digits.length - places) ++ '.' :: digits.drop (digits.length - places)
    else '0' :: '.' :: (List.replicate (places - digits.length) '0' ++ digits)

/-- One digit, the others behind a point, and the power of ten with its sign. -/
def scientific (d : Decimal) : List Char :=
  let digits := d.digits
  let power := d.exponent + digits.length - 1
  let mantissa := match digits with
    | first :: second :: others => first :: '.' :: second :: others
    | short => short
  let sign := if 0 ≤ power then '+' else '-'
  mantissa ++ 'e' :: sign :: Nat.toDigits 10 power.natAbs

end Decimal

end Lox
