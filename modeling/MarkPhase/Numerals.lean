import MarkPhase.Binary64

/-!
Decimal numerals as people write them in settings: an optional sign, digits with
an optional point among or around them, and an optional exponent. A numeral is
read as the nearest binary64 number.
-/

namespace MarkPhase

/-- The number `digits * 10 ^ exponent` or its opposite. -/
structure Numeral where
  negative : Bool
  digits : Nat
  exponent : Int
deriving DecidableEq

namespace Numeral

/-- A sign and what follows it; no sign means a positive number. -/
def splitSign : List Char → Bool × List Char
  | '-' :: rest => (true, rest)
  | '+' :: rest => (false, rest)
  | chars => (false, chars)

def digitsValue (digits : List Char) : Nat :=
  digits.foldl (fun value digit => 10 * value + (digit.toNat - '0'.toNat)) 0

/-- An exponent after its mark, with at least one digit. -/
def readPower (chars : List Char) : Option Int :=
  let (negative, digits) := splitSign chars
  if digits.isEmpty || !digits.all Char.isDigit then
    none
  else if negative then
    some (-(digitsValue digits : Int))
  else
    some (digitsValue digits)

/-- The exponent part of a numeral, which may be absent. -/
def readExponent : List Char → Option Int
  | [] => some 0
  | 'e' :: rest => readPower rest
  | 'E' :: rest => readPower rest
  | _ => none

/-- The digits after a point, if there is a point, and the rest. -/
def splitFraction : List Char → List Char × List Char
  | '.' :: rest => (rest.takeWhile Char.isDigit, rest.dropWhile Char.isDigit)
  | chars => ([], chars)

/-- The numeral that a text is, if it is one. -/
def parse? (chars : List Char) : Option Numeral :=
  let (negative, unsigned) := splitSign chars
  let whole := unsigned.takeWhile Char.isDigit
  let (fraction, rest) := splitFraction (unsigned.dropWhile Char.isDigit)
  if (whole ++ fraction).isEmpty then
    none
  else
    (readExponent rest).map fun exponent =>
      { negative, digits := digitsValue (whole ++ fraction), exponent := exponent - fraction.length }

/-- The nearest binary64 number to the numeral's magnitude, as mantissa and
exponent. Magnitudes of `10 ^ 21` and more are left out, and what lies below all
numbers is zero. -/
def magnitude? (numeral : Numeral) : Option (Nat × Int) :=
  let top := digitCount numeral.digits + numeral.exponent
  if numeral.digits = 0 ∨ top ≤ -324 then
    some (0, 0)
  else if 22 ≤ top then
    none
  else
    some (nearestBinary (numeral.digits * Nat.pow 10 numeral.exponent.toNat)
      (Nat.pow 10 (-numeral.exponent).toNat))

/-- The whole part of the number read, if it is a count of 64 bits. A number that
is negative after rounding is none. -/
def toCount? (numeral : Numeral) : Option Nat :=
  match numeral.magnitude? with
  | none => none
  | some (mantissa, exponent) =>
    let whole := mantissa * Nat.pow 2 exponent.toNat / Nat.pow 2 (-exponent).toNat
    if (numeral.negative ∧ mantissa ≠ 0) ∨ Nat.pow 2 64 ≤ whole then none else some whole

end Numeral

end MarkPhase
