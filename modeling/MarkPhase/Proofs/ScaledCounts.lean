import Mathlib.Data.List.TakeWhile
import MarkPhase.Proofs.Roundings
import MarkPhase.Settings

/-!
Counts with suffixes. A text of white space, a decimal numeral, a suffix for a power of 1024
and perhaps a letter for bytes is read as the whole part of the numeral times that power. The
fraction of the numeral is gone before the suffix is applied, so the text gives the whole part
of what it says only where the fraction would not have counted.
-/

namespace MarkPhase

/-- A decimal numeral without sign and exponent: digits, and after a point, if there is one,
more digits. There is at least one digit. -/
structure PlainNumeral where
  whole : List Char
  fraction : Option (List Char)
  digits : ∀ char ∈ whole ++ fraction.getD [], char.isDigit = true
  nonempty : whole ++ fraction.getD [] ≠ []

namespace PlainNumeral

def chars (numeral : PlainNumeral) : List Char :=
  numeral.whole ++
    match numeral.fraction with
    | none => []
    | some digits => '.' :: digits

/-- The number that the numeral stands for. -/
def value (numeral : PlainNumeral) : ℚ :=
  Numeral.digitsValue (numeral.whole ++ numeral.fraction.getD []) /
    10 ^ (numeral.fraction.getD []).length

variable (numeral : PlainNumeral)

theorem whole_digits : ∀ char ∈ numeral.whole, char.isDigit = true :=
  fun char hmem => numeral.digits char (List.mem_append_left _ hmem)

theorem isDigit_or_point : ∀ char ∈ numeral.chars, char.isDigit = true ∨ char = '.' := by
  intro char hmem
  rcases List.mem_append.mp hmem with hwhole | hrest
  · exact Or.inl (numeral.whole_digits char hwhole)
  · cases hfraction : numeral.fraction with
    | none => simp [hfraction] at hrest
    | some digits =>
      simp only [hfraction, List.mem_cons] at hrest
      rcases hrest with rfl | hdigit
      · exact Or.inr rfl
      · exact Or.inl (numeral.digits char (by simp [hfraction, hdigit]))

theorem chars_ne_nil : numeral.chars ≠ [] := by
  have hnonempty := numeral.nonempty
  unfold chars
  cases hfraction : numeral.fraction with
  | none => simpa [hfraction] using hnonempty
  | some digits => simp

/-- No sign is split off. -/
theorem splitSign_chars : Numeral.splitSign numeral.chars = (false, numeral.chars) := by
  unfold Numeral.splitSign
  split
  · rename_i heq
    have hhead := numeral.isDigit_or_point '-' (by rw [heq]; exact List.mem_cons_self ..)
    exact absurd hhead (by decide)
  · rename_i heq
    have hhead := numeral.isDigit_or_point '+' (by rw [heq]; exact List.mem_cons_self ..)
    exact absurd hhead (by decide)
  · rfl

theorem parse?_chars : Numeral.parse? numeral.chars =
    some ⟨false, Numeral.digitsValue (numeral.whole ++ numeral.fraction.getD []),
      -(numeral.fraction.getD []).length⟩ := by
  have hnonempty : (numeral.whole ++ numeral.fraction.getD []).isEmpty = false := by
    simpa using numeral.nonempty
  have hwhole : numeral.chars.takeWhile Char.isDigit = numeral.whole := by
    rw [chars, List.takeWhile_append_of_pos numeral.whole_digits]
    cases numeral.fraction <;> simp
  have hsplit : Numeral.splitFraction (numeral.chars.dropWhile Char.isDigit) =
      (numeral.fraction.getD [], []) := by
    rw [chars, List.dropWhile_append_of_pos numeral.whole_digits]
    cases hfraction : numeral.fraction with
    | none => rfl
    | some digits =>
      have hdigits : ∀ char ∈ digits, char.isDigit = true := fun char hmem =>
        numeral.digits char (by simp [hfraction, hmem])
      have htake : digits.takeWhile Char.isDigit = digits := List.takeWhile_eq_self_iff.mpr hdigits
      have hdrop : digits.dropWhile Char.isDigit = [] := List.dropWhile_eq_nil_iff.mpr hdigits
      simp [Numeral.splitFraction, htake, hdrop]
  simp only [Numeral.parse?, numeral.splitSign_chars, hwhole, hsplit, hnonempty,
    Bool.false_eq_true, if_false, Numeral.readExponent, Option.map_some, zero_sub]

theorem value_eq : numeral.value =
    Numeral.value (Numeral.digitsValue (numeral.whole ++ numeral.fraction.getD []))
      (-(numeral.fraction.getD []).length) := by
  rw [value, Numeral.value, zpow_neg, zpow_natCast, div_eq_mul_inv]

end PlainNumeral

/-- The powers of 1024 that a suffix may stand for. -/
inductive Scale
  | one
  | kilo
  | mega
  | giga
deriving DecidableEq

namespace Scale

def factor : Scale → ℕ
  | one => 1
  | kilo => 1024
  | mega => 1024 ^ 2
  | giga => 1024 ^ 3

/-- The letters that stand for a power. No letter stands for one. -/
def letters : Scale → List (Option Char)
  | one => [none]
  | kilo => [some 'k', some 'K']
  | mega => [some 'm', some 'M']
  | giga => [some 'g', some 'G']

theorem factor_pos (scale : Scale) : 0 < scale.factor := by
  cases scale <;> simp [factor]

theorem eq_one_of_none {scale : Scale} (h : none ∈ scale.letters) : scale = one := by
  cases scale <;> simp [letters] at h
  rfl

theorem of_letter {scale : Scale} {letter : Char} (h : some letter ∈ scale.letters) :
    suffixFactor letter = some scale.factor ∧ isBlank letter = false ∧
      letter ≠ 'b' ∧ letter ≠ 'B' := by
  cases scale <;> simp [letters] at h <;> rcases h with rfl | rfl <;> decide

end Scale

/-- A text that gives a size: a numeral that is a binary64 number, a suffix and perhaps a letter
for bytes, with white space around them. -/
structure SizeText where
  before : List Char
  numeral : PlainNumeral
  scale : Scale
  suffix : Option Char
  bytes : Option Char
  after : List Char
  before_blank : ∀ char ∈ before, isBlank char = true
  after_blank : ∀ char ∈ after, isBlank char = true
  suffix_mem : suffix ∈ scale.letters
  bytes_mem : bytes ∈ [none, some 'b', some 'B']
  exact : IsBinary numeral.value

/-- A digit is no suffix, no white space and no letter for bytes. -/
theorem plain_of_isDigit {char : Char} (h : char.isDigit = true) :
    suffixFactor char = none ∧ isBlank char = false ∧ char ≠ 'b' ∧ char ≠ 'B' := by
  simp only [Char.isDigit, Bool.and_eq_true, decide_eq_true_eq, ge_iff_le, UInt32.le_iff_toNat_le]
    at h
  have hlow : 48 ≤ char.toNat := h.1
  have hhigh : char.toNat ≤ 57 := h.2
  refine ⟨?_, by simp [isBlank]; omega, ?_, ?_⟩
  · unfold suffixFactor
    split <;> first | rfl | (exact absurd hhigh (by decide))
  · rintro rfl
    exact absurd hhigh (by decide)
  · rintro rfl
    exact absurd hhigh (by decide)

namespace PlainNumeral

theorem of_mem_chars (numeral : PlainNumeral) {char : Char} (h : char ∈ numeral.chars) :
    suffixFactor char = none ∧ isBlank char = false ∧ char ≠ 'b' ∧ char ≠ 'B' := by
  rcases numeral.isDigit_or_point char h with hdigit | rfl
  · exact plain_of_isDigit hdigit
  · decide

end PlainNumeral

namespace SizeText

variable (size : SizeText)

/-- The numeral with its suffix. -/
def scaled : List Char :=
  size.numeral.chars ++ size.suffix.toList

/-- The text without the white space around it. -/
def core : List Char :=
  size.scaled ++ size.bytes.toList

def text : String :=
  String.ofList (size.before ++ size.core ++ size.after)

theorem of_mem_scaled {char : Char} (h : char ∈ size.scaled) :
    isBlank char = false ∧ char ≠ 'b' ∧ char ≠ 'B' := by
  rcases List.mem_append.mp h with hnumeral | hsuffix
  · exact (size.numeral.of_mem_chars hnumeral).2
  · rw [Option.mem_toList] at hsuffix
    exact (Scale.of_letter (hsuffix ▸ size.suffix_mem)).2

/-- No character of the core counts as white space. -/
theorem isBlank_core : ∀ char ∈ size.core, isBlank char = false := by
  intro char hmem
  rcases List.mem_append.mp hmem with hscaled | hbytes
  · exact (size.of_mem_scaled hscaled).1
  · have hletter := size.bytes_mem
    rw [Option.mem_toList.mp hbytes] at hletter
    simp only [List.mem_cons, List.not_mem_nil, or_false, reduceCtorEq, false_or,
      Option.some.injEq] at hletter
    rcases hletter with rfl | rfl <;> decide

theorem scaled_ne_nil : size.scaled ≠ [] := by
  simp [scaled, size.numeral.chars_ne_nil]

theorem dropWhile_padded {before core : List Char} (hbefore : ∀ char ∈ before, isBlank char = true)
    (hcore : ∀ char ∈ core, isBlank char = false) (hne : core ≠ []) (after : List Char) :
    (before ++ core ++ after).dropWhile isBlank = core ++ after := by
  obtain ⟨char, rest, rfl⟩ := List.exists_cons_of_ne_nil hne
  rw [List.append_assoc, List.dropWhile_append_of_pos hbefore, List.cons_append,
    List.dropWhile_cons_of_neg (by simp [hcore char])]

theorem trimBlank_text : trimBlank size.text.toList = size.core := by
  have hne : size.core ≠ [] := by simp [core, size.scaled_ne_nil]
  have hfront := dropWhile_padded size.before_blank size.isBlank_core hne size.after
  have hback : (size.after.reverse ++ size.core.reverse ++ []).dropWhile isBlank =
      size.core.reverse ++ [] :=
    dropWhile_padded (by simpa using size.after_blank) (by simpa using size.isBlank_core)
      (by simpa using hne) []
  rw [List.append_nil, List.append_nil, ← List.reverse_append] at hback
  rw [text, String.toList_ofList, trimBlank, hfront, hback, List.reverse_reverse]

/-- One letter for bytes goes, and no other last letter does. -/
theorem dropByteLetter_core : dropByteLetter size.core = size.scaled := by
  have hletter := size.bytes_mem
  rw [dropByteLetter, core]
  cases hbytes : size.bytes with
  | none =>
    rw [Option.toList_none, List.append_nil, List.getLast?_eq_some_getLast size.scaled_ne_nil]
    have hlast := size.of_mem_scaled (List.getLast_mem size.scaled_ne_nil)
    simp [hlast.2.1, hlast.2.2]
  | some letter =>
    have hlong : 1 < (size.scaled ++ [letter]).length := by
      have hpos := List.length_pos_iff.mpr size.scaled_ne_nil
      rw [List.length_append, List.length_singleton]
      omega
    rw [hbytes] at hletter
    simp only [List.mem_cons, List.not_mem_nil, or_false, reduceCtorEq, false_or,
      Option.some.injEq] at hletter
    rw [Option.toList_some, List.getLast?_concat]
    simp only [hletter, hlong, and_self, if_true, List.dropLast_concat]

theorem splitFactor_scaled :
    splitFactor size.scaled = (size.numeral.chars, size.scale.factor) := by
  have hletter := size.suffix_mem
  rw [splitFactor, scaled]
  cases hsuffix : size.suffix with
  | none =>
    rw [hsuffix] at hletter
    have hlast := size.numeral.of_mem_chars (List.getLast_mem size.numeral.chars_ne_nil)
    rw [Option.toList_none, List.append_nil,
      List.getLast?_eq_some_getLast size.numeral.chars_ne_nil, Option.bind_some, hlast.1,
      Scale.eq_one_of_none hletter]
    rfl
  | some letter =>
    rw [hsuffix] at hletter
    rw [Option.toList_some, List.getLast?_concat, Option.bind_some, (Scale.of_letter hletter).1]
    simp only [List.dropLast_concat]

/-- The count that is read is the whole part of the numeral, scaled. -/
theorem readCount?_eq :
    readCount? size.text = fitting (⌊size.numeral.value⌋₊ * size.scale.factor) := by
  have hread : readCount? size.text =
      (fitting ⌊size.numeral.value⌋₊).bind fun count => fitting (count * size.scale.factor) := by
    have hexact := size.exact
    rw [size.numeral.value_eq] at hexact ⊢
    rw [readCount?, size.trimBlank_text, size.dropByteLetter_core, size.splitFactor_scaled,
      ← Numeral.toCount?_eq hexact]
    simp only [size.numeral.parse?_chars]
    rfl
  rw [hread, fitting]
  split
  · rfl
  · have hle := Nat.le_mul_of_pos_right ⌊size.numeral.value⌋₊ size.scale.factor_pos
    rw [fitting, if_neg (by omega)]
    rfl

theorem floor_mul_le :
    ⌊size.numeral.value⌋₊ * size.scale.factor ≤ ⌊size.numeral.value * size.scale.factor⌋₊ := by
  refine Nat.le_floor ?_
  have hvalue : (0 : ℚ) ≤ size.numeral.value := by
    unfold PlainNumeral.value
    positivity
  push_cast
  gcongr
  exact Nat.floor_le hvalue

/-- The count that is read is the whole part of the numeral, scaled. This is the whole part of
the scaled numeral where the fraction makes no difference to it, or where neither fits. -/
theorem readCount?_text :
    readCount? size.text = fitting (⌊size.numeral.value⌋₊ * size.scale.factor) ∧
    (readCount? size.text = fitting ⌊size.numeral.value * size.scale.factor⌋₊ ↔
      ⌊size.numeral.value * size.scale.factor⌋₊ = ⌊size.numeral.value⌋₊ * size.scale.factor ∨
        2 ^ 64 ≤ ⌊size.numeral.value⌋₊ * size.scale.factor) := by
  have hmono := size.floor_mul_le
  refine ⟨size.readCount?_eq, ?_⟩
  rw [size.readCount?_eq, fitting, fitting]
  constructor
  · intro heq
    by_contra hnot
    rw [not_or] at hnot
    rw [if_pos (by omega)] at heq
    split at heq
    · exact hnot.1 (Option.some.inj heq).symm
    · cases heq
  · rintro (heq | hlarge)
    · rw [heq]
    · rw [if_neg (by omega), if_neg (by omega)]

/-- One half. -/
def half : PlainNumeral where
  whole := ['0']
  fraction := some ['5']
  digits := List.all_eq_true.mp rfl
  nonempty := List.cons_ne_nil _ _

theorem value_half : half.value = 1 / 2 := by
  have hdigits : Numeral.digitsValue ['0', '5'] = 5 := by decide
  simp only [PlainNumeral.value, half, Option.getD_some, List.cons_append, List.nil_append,
    hdigits, List.length_singleton]
  norm_num

/-- Half a kilobyte. -/
def halfKilo : SizeText where
  before := []
  numeral := half
  scale := .kilo
  suffix := some 'k'
  bytes := none
  after := []
  before_blank := by simp
  after_blank := by simp
  suffix_mem := by decide
  bytes_mem := by decide
  exact := ⟨1, -1, by norm_num, by norm_num, by norm_num, by norm_num [value_half]⟩

theorem scaled_halfKilo : ⌊halfKilo.numeral.value * halfKilo.scale.factor⌋₊ = 512 := by
  have hvalue : halfKilo.numeral.value * halfKilo.scale.factor = (512 : ℕ) := by
    norm_num [halfKilo, value_half, Scale.factor]
  rw [hvalue, Nat.floor_natCast]

/-- Of half a kilobyte the fraction makes a difference. -/
theorem readCount?_halfKilo :
    readCount? halfKilo.text = fitting (⌊halfKilo.numeral.value⌋₊ * halfKilo.scale.factor) ∧
      ¬ readCount? halfKilo.text = fitting ⌊halfKilo.numeral.value * halfKilo.scale.factor⌋₊ := by
  obtain ⟨hread, hiff⟩ := halfKilo.readCount?_text
  have hcut : ⌊halfKilo.numeral.value⌋₊ * halfKilo.scale.factor = 0 := by
    have hwhole : ⌊halfKilo.numeral.value⌋₊ = 0 :=
      Nat.floor_eq_zero.mpr (by norm_num [halfKilo, value_half])
    rw [hwhole, Nat.zero_mul]
  refine ⟨hread, fun heq => ?_⟩
  rw [hiff, scaled_halfKilo, hcut] at heq
  omega

/-- Half a kilobyte is 512, and it is read as zero. A stack that may hold half a kilobyte of
entries has no bound, and a slice with half a kilobyte of work goes on until all is done. -/
theorem fraction_lost :
    let given (name : String) : Configuration :=
      .ofSettings fun other => if other = name then some halfKilo.text else none
    halfKilo.text = "0.5k" ∧ ⌊halfKilo.numeral.value * halfKilo.scale.factor⌋₊ = 512 ∧
      readCount? halfKilo.text = some 0 ∧
      SegmentedStack.boundOf (given "GC_MARK_STACK_LIMIT").stackLimit =
        SegmentedStack.boundOf 0 ∧
      (given "GC_MARK_SLICE_BUDGET").budget = .unlimited := by
  intro given
  have hread : readCount? halfKilo.text = some 0 := by decide +kernel
  refine ⟨by decide +kernel, scaled_halfKilo, hread, ?_, ?_⟩
  · simp [given, Configuration.ofSettings, hread]
  · simp [given, Configuration.ofSettings, hread, Configuration.budget]

end SizeText

end MarkPhase
