import MarkPhase.Values

/-!
Binary64 numbers as exact multiples of powers of two, the nearest such number to
a fraction, and the shortest decimal that reads back as a given number. All of it
is exact arithmetic on natural numbers.
-/

namespace MarkPhase

/-- What a binary64 number stands for. -/
inductive Reading
  | nan
  | infinite (negative : Bool)
  /-- The number `mantissa * 2 ^ exponent` or its opposite. -/
  | finite (negative : Bool) (mantissa : Nat) (exponent : Int)
deriving DecidableEq

namespace Double

def isNegative (x : Double) : Bool :=
  decide (0x8000000000000000 ≤ x.bits)

/-- The number's meaning. A zero exponent field means a subnormal number. -/
def reading (x : Double) : Reading :=
  let field : Nat := x.magnitude.toNat / Nat.pow 2 52
  let fraction : Nat := x.magnitude.toNat % Nat.pow 2 52
  if field = 2047 then
    if fraction = 0 then .infinite x.isNegative else .nan
  else if field = 0 then
    .finite x.isNegative fraction (-1074)
  else
    .finite x.isNegative (Nat.pow 2 52 + fraction) ((field : Int) - 1075)

end Double

/-- The whole number nearest to `num / den`, an even one where two are. -/
def roundHalfEven (num den : Nat) : Nat :=
  let whole := num / den
  let rest := 2 * (num % den)
  if rest < den ∨ (rest = den ∧ whole % 2 = 0) then whole else whole + 1

/-- The binary64 number nearest to `num / den`, as mantissa and exponent. The
fraction is taken to be positive and below the greatest finite number. -/
def nearestBinary (num den : Nat) : Nat × Int :=
  let exponent : Int := max ((Nat.log2 num : Int) - Nat.log2 den - 53) (-1074)
  let num := num * Nat.pow 2 (-exponent).toNat
  let den := den * Nat.pow 2 exponent.toNat
  if num / den < Nat.pow 2 53 then
    (roundHalfEven num den, exponent)
  else
    (roundHalfEven num (2 * den), exponent + 1)

/-- The number of decimal digits of a number, none for zero. -/
def digitCount (n : Nat) : Nat :=
  if n = 0 then 0 else (Nat.toDigits 10 n).length

/-- The exponent of the leading decimal digit of `num / den`. -/
def leadingExponent (num den : Nat) : Int :=
  if den ≤ num then
    digitCount (num / den) - 1
  else
    -(digitCount ((den + num - 1) / num - 1) : Int)

/-- The numbers that read as `mantissa * 2 ^ exponent` lie between these two
multiples of a quarter of the last binary place. Below a power of two the gap is
half as wide. -/
def readingBounds (mantissa : Nat) (exponent : Int) : Nat × Nat :=
  if mantissa = Nat.pow 2 52 ∧ -1074 < exponent then
    (4 * mantissa - 1, 4 * mantissa + 2)
  else
    (4 * mantissa - 2, 4 * mantissa + 2)

/-- The multiple of `10 ^ place` nearest to `mantissa * 2 ^ exponent` among those
that read back as it; of two equally near ones the greater. -/
def readingAtPlace (mantissa : Nat) (exponent place : Int) : Option Nat :=
  let grid := Nat.pow 10 place.toNat * Nat.pow 2 (2 - exponent).toNat
  let unit := Nat.pow 10 (-place).toNat * Nat.pow 2 (exponent - 2).toNat
  let value := 4 * mantissa * unit
  let (low, high) := readingBounds mantissa exponent
  let readsBack (count : Nat) : Bool :=
    if mantissa % 2 = 0 then
      decide (low * unit ≤ count * grid ∧ count * grid ≤ high * unit)
    else
      decide (low * unit < count * grid ∧ count * grid < high * unit)
  let below := value / grid
  match readsBack below, readsBack (below + 1) with
  | true, false => some below
  | false, true => some (below + 1)
  | true, true => if 2 * (value % grid) < grid then some below else some (below + 1)
  | false, false => none

/-- The decimal `count * 10 ^ place` of fewest digits that reads as a positive
number. Seventeen digits are always enough. -/
def shortestDecimal (mantissa : Nat) (exponent : Int) : Nat × Int :=
  let leading := leadingExponent (mantissa * Nat.pow 2 exponent.toNat) (Nat.pow 2 (-exponent).toNat)
  let places := (List.range 17).map fun (digits : Nat) => leading - digits
  let found := places.findSome? fun place =>
    (readingAtPlace mantissa exponent place).map (·, place)
  found.getD (0, 0)

end MarkPhase
