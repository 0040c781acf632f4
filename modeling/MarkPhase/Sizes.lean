import MarkPhase.Decimals

/-!
Sizes in bytes for people to read: plain below one K, and with one decimal above.
A size stays in M until it reaches eight G.
-/

namespace MarkPhase

namespace Reading

/-- The size of as many bytes as the number says. -/
def sizeText (size : Reading) : String :=
  match size with
  | .nan => "NaNG"
  | .infinite negative => if negative then "-infB" else "infG"
  | .finite negative mantissa exponent =>
    let num := mantissa * Nat.pow 2 exponent.toNat
    let den := Nat.pow 2 (-exponent).toNat
    if negative ∨ num < Nat.pow 2 10 * den then
      size.text ++ "B"
    else if num < Nat.pow 2 20 * den then
      oneDecimal num (Nat.pow 2 10 * den) ++ "K"
    else if num < Nat.pow 2 33 * den then
      oneDecimal num (Nat.pow 2 20 * den) ++ "M"
    else
      oneDecimal num (Nat.pow 2 30 * den) ++ "G"

end Reading

/-- The size text of a whole number, which is first rounded to binary64. -/
def sizeText (bytes : Nat) : String :=
  if bytes = 0 then
    "0B"
  else
    let (mantissa, exponent) := nearestBinary bytes 1
    (Reading.finite false mantissa exponent).sizeText

end MarkPhase
