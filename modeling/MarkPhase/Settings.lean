import MarkPhase.Configuration
import MarkPhase.Numerals

/-!
Settings given as texts, such as those of an environment: counts with a suffix
for powers of 1024, flags, and the configuration of a marker. A text that is not
understood counts as not given.
-/

namespace MarkPhase

/-- The characters that Unicode counts as white space. -/
def isBlank (char : Char) : Bool :=
  let code := char.toNat
  (9 ≤ code && code ≤ 13) || code == 0x20 || code == 0x85 || code == 0xa0 ||
    code == 0x1680 || (0x2000 ≤ code && code ≤ 0x200a) || code == 0x2028 ||
    code == 0x2029 || code == 0x202f || code == 0x205f || code == 0x3000

/-- A text without the white space around it. -/
def trimBlank (chars : List Char) : List Char :=
  ((chars.dropWhile isBlank).reverse.dropWhile isBlank).reverse

/-- The factor that a last letter stands for. -/
def suffixFactor : Char → Option Nat
  | 'g' => some (Nat.pow 2 30)
  | 'G' => some (Nat.pow 2 30)
  | 'm' => some (Nat.pow 2 20)
  | 'M' => some (Nat.pow 2 20)
  | 'k' => some (Nat.pow 2 10)
  | 'K' => some (Nat.pow 2 10)
  | _ => none

/-- Drops one final letter for bytes, unless nothing else is there. -/
def dropByteLetter (chars : List Char) : List Char :=
  match chars.getLast? with
  | some last =>
    if (last = 'b' ∨ last = 'B') ∧ 1 < chars.length then chars.dropLast else chars
  | none => chars

/-- A numeral and the factor after it. -/
def splitFactor (chars : List Char) : List Char × Nat :=
  match chars.getLast?.bind suffixFactor with
  | some factor => (chars.dropLast, factor)
  | none => (chars, 1)

/-- The count that a text gives. The numeral is cut to its whole part before the
factor is applied. -/
def readCount? (text : String) : Option Nat := do
  let (chars, factor) := splitFactor (dropByteLetter (trimBlank text.toList))
  let count ← (← Numeral.parse? chars).toCount?
  if count * factor < Nat.pow 2 64 then some (count * factor) else none

/-- The flag that a text gives, in whatever case. -/
def readFlag? (text : String) : Option Bool :=
  let word := text.map Char.toLower
  if word ∈ ["true", "1", "yes", "on"] then some true
  else if word ∈ ["false", "0", "no", "off"] then some false
  else none

namespace Configuration

/-- The configuration that settings ask for. A segment size of zero is ignored. -/
def ofSettings (setting : String → Option String) : Configuration :=
  let count (name : String) : Option Nat := (setting name).bind readCount?
  let standard : Configuration := {}
  { stackLimit := (count "GC_MARK_STACK_LIMIT").getD standard.stackLimit
    segmentSize :=
      ((count "GC_MARK_STACK_SEGMENT").filter (0 < ·)).getD standard.segmentSize
    maxCached := (count "GC_MARK_STACK_CACHE").getD standard.maxCached
    sliceBudget := (count "GC_MARK_SLICE_BUDGET").getD standard.sliceBudget }

end Configuration

end MarkPhase
