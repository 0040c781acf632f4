import MarkPhase.Printable

/-!
Texts in quotes. Quotes and backslashes are escaped, a few control characters
have letters of their own, and whatever cannot be shown is written by its code
point.
-/

namespace MarkPhase

/-- A number in lower-case hexadecimal digits. -/
def hexDigits (n : Nat) : String :=
  String.ofList (Nat.toDigits 16 n)

def escapeChar (char : Char) : String :=
  if char = '"' then "\\\""
  else if char = '\\' then "\\\\"
  else if char = '\t' then "\\t"
  else if char = '\n' then "\\n"
  else if char = '\r' then "\\r"
  else if char.toNat = 0 then "\\0"
  else if isPrintable char then char.toString
  else "\\u\x7b" ++ hexDigits char.toNat ++ "\x7d"

def quoted (text : String) : String :=
  "\"" ++ String.join (text.toList.map escapeChar) ++ "\""

end MarkPhase
