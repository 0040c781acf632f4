import MarkPhase.Binary64

/-!
Decimal texts of binary64 numbers. The plain form has the fewest digits that read
back and never an exponent; the debug form marks whole numbers by a final zero
and turns to an exponent for very small and very great numbers.
-/

namespace MarkPhase

/-- A run of digits without its trailing zeros, and the place of the last one. -/
def significantDigits (count : Nat) (place : Int) : List Char × Int :=
  let digits := Nat.toDigits 10 count
  let zeros := (digits.reverse.takeWhile (· == '0')).length
  (digits.take (digits.length - zeros), place + zeros)

/-- Digits of which the last stands at the power `place` of ten. -/
def positional (digits : List Char) (place : Int) : String :=
  if 0 ≤ place then
    String.ofList (digits ++ List.replicate place.toNat '0')
  else
    let decimals := (-place).toNat
    if decimals < digits.length then
      String.ofList (digits.take (digits.length - decimals)) ++ "." ++
        String.ofList (digits.drop (digits.length - decimals))
    else
      "0." ++ String.ofList (List.replicate (decimals - digits.length) '0' ++ digits)

/-- One digit before the point, and the power of ten of that digit. -/
def scientific (digits : List Char) (place : Int) : String :=
  let power : Int := place + digits.length - 1
  let tail := String.ofList (digits.drop 1)
  String.ofList (digits.take 1) ++ (if tail.isEmpty then "" else "." ++ tail) ++ "e" ++
    toString power

def signText (negative : Bool) : String :=
  if negative then "-" else ""

namespace Reading

/-- The plain decimal text. -/
def text : Reading → String
  | .nan => "NaN"
  | .infinite negative => signText negative ++ "inf"
  | .finite negative mantissa exponent =>
    if mantissa = 0 then
      signText negative ++ "0"
    else
      let (count, place) := shortestDecimal mantissa exponent
      let (digits, place) := significantDigits count place
      signText negative ++ positional digits place

/-- Whether the leading digit is one of the powers of ten that the debug form
writes out. -/
def isWrittenOut (digits : List Char) (place : Int) : Bool :=
  let leading : Int := place + digits.length - 1
  decide (-4 ≤ leading ∧ leading < 16)

/-- The debug text. -/
def debugText : Reading → String
  | .nan => "NaN"
  | .infinite negative => signText negative ++ "inf"
  | .finite negative mantissa exponent =>
    if mantissa = 0 then
      signText negative ++ "0.0"
    else
      let (count, place) := shortestDecimal mantissa exponent
      let (digits, place) := significantDigits count place
      signText negative ++
        if isWrittenOut digits place then
          positional digits place ++ (if 0 ≤ place then ".0" else "")
        else
          scientific digits place

end Reading

/-- The text of `num / den` with one decimal, rounded half to even. -/
def oneDecimal (num den : Nat) : String :=
  let tenths := roundHalfEven (10 * num) den
  toString (tenths / 10) ++ "." ++ toString (tenths % 10)

end MarkPhase
