import MarkPhase.Texts

/-!
Ranges of texts. A range counts bytes, so it is there only where it starts and ends between
two characters; a text then falls into what comes before the range, the range and what comes
after it. A range of a range is a range of the whole text.
-/

namespace MarkPhase

/-- The number of bytes that the characters take. -/
def byteCount (chars : List Char) : Nat :=
  (String.ofList chars).utf8ByteSize

@[simp]
theorem byteCount_nil : byteCount [] = 0 :=
  rfl

@[simp]
theorem byteCount_append (chars others : List Char) :
    byteCount (chars ++ others) = byteCount chars + byteCount others := by
  simp [byteCount, String.ofList_append]

theorem byteCount_cons (char : Char) (rest : List Char) :
    byteCount (char :: rest) = char.utf8Size + byteCount rest := by
  have hone : byteCount [char] = char.utf8Size := by
    rw [byteCount, ← String.singleton_eq_ofList, String.utf8ByteSize_singleton]
  rw [← List.singleton_append, byteCount_append, hone]

/-- Characters take bytes, so that nothing but no character takes none. -/
theorem byteCount_eq_zero {chars : List Char} : byteCount chars = 0 ↔ chars = [] := by
  cases chars with
  | nil => simp
  | cons char rest =>
    have hpos := char.utf8Size_pos
    rw [byteCount_cons]
    simp only [reduceCtorEq, iff_false]
    omega

/-- The characters fall into those in the first `count` bytes and the rest. -/
def Splits (count : Nat) (chars taken rest : List Char) : Prop :=
  chars = taken ++ rest ∧ byteCount taken = count

namespace Splits

variable {count : Nat} {char : Char} {chars taken rest : List Char}

theorem zero_iff : Splits 0 chars taken rest ↔ taken = [] ∧ rest = chars := by
  unfold Splits
  rw [byteCount_eq_zero]
  constructor
  · rintro ⟨rfl, rfl⟩
    exact ⟨rfl, rfl⟩
  · rintro ⟨rfl, rfl⟩
    exact ⟨rfl, rfl⟩

theorem not_nil : ¬ Splits (count + 1) [] taken rest := by
  rintro ⟨hchars, hcount⟩
  rw [(List.eq_nil_of_append_eq_nil hchars.symm).1] at hcount
  cases hcount

/-- The first character is taken if it does not straddle the boundary. -/
theorem cons_iff : Splits (count + 1) (char :: chars) taken rest ↔
    char.utf8Size ≤ count + 1 ∧ ∃ others, taken = char :: others ∧
      Splits (count + 1 - char.utf8Size) chars others rest := by
  unfold Splits
  constructor
  · rintro ⟨hchars, hcount⟩
    cases taken with
    | nil => cases hcount
    | cons first others =>
      obtain ⟨rfl, rfl⟩ := List.cons_eq_cons.mp hchars
      rw [byteCount_cons] at hcount
      exact ⟨by omega, others, rfl, rfl, by omega⟩
  · rintro ⟨hfits, others, rfl, rfl, hcount⟩
    rw [byteCount_cons]
    exact ⟨rfl, by omega⟩

end Splits

theorem dropBytes_eq_some {count : Nat} {chars rest : List Char} :
    dropBytes count chars = some rest ↔ ∃ taken, Splits count chars taken rest := by
  fun_induction dropBytes with
  | case1 => simp [Splits.zero_iff, eq_comm]
  | case2 => simp [Splits.not_nil]
  | case3 count char chars hfits ih =>
    rw [ih]
    constructor
    · rintro ⟨others, hothers⟩
      exact ⟨char :: others, Splits.cons_iff.mpr ⟨hfits, others, rfl, hothers⟩⟩
    · rintro ⟨taken, htaken⟩
      obtain ⟨-, others, -, hothers⟩ := Splits.cons_iff.mp htaken
      exact ⟨others, hothers⟩
  | case4 count char chars hfits => simp [Splits.cons_iff, hfits]

theorem takeBytes_eq_some {count : Nat} {chars taken : List Char} :
    takeBytes count chars = some taken ↔ ∃ rest, Splits count chars taken rest := by
  fun_induction takeBytes generalizing taken with
  | case1 => simp [Splits.zero_iff, eq_comm]
  | case2 => simp [Splits.not_nil]
  | case3 count char chars hfits ih =>
    rw [Option.map_eq_some_iff]
    constructor
    · rintro ⟨others, hothers, rfl⟩
      obtain ⟨rest, hrest⟩ := ih.mp hothers
      exact ⟨rest, Splits.cons_iff.mpr ⟨hfits, others, rfl, hrest⟩⟩
    · rintro ⟨rest, hrest⟩
      obtain ⟨-, others, rfl, hothers⟩ := Splits.cons_iff.mp hrest
      exact ⟨others, ih.mpr ⟨rest, hothers⟩, rfl⟩
  | case4 count char chars hfits => simp [Splits.cons_iff, hfits]

section Slices

variable {chars text part : String} {start length offset count : Nat}

/-- A range of a text has as many bytes before it as its start says, and as many bytes as its
length says. -/
theorem slice?_eq_some : slice? chars start length = some text ↔
    ∃ before after, chars = before ++ text ++ after ∧ before.utf8ByteSize = start ∧
      text.utf8ByteSize = length := by
  unfold slice?
  simp only [Option.bind_eq_bind, Option.bind_eq_some_iff, dropBytes_eq_some, takeBytes_eq_some,
    Option.pure_def, Option.some.injEq]
  constructor
  · rintro ⟨_, ⟨before, hchars, hbefore⟩, taken, ⟨after, rfl, htaken⟩, rfl⟩
    refine ⟨String.ofList before, String.ofList after, ?_, hbefore, htaken⟩
    rw [← String.ofList_toList (s := chars), hchars, String.ofList_append, String.ofList_append,
      String.append_assoc]
  · rintro ⟨before, after, rfl, hbefore, htext⟩
    refine ⟨text.toList ++ after.toList, ⟨before.toList, ?_, ?_⟩, text.toList,
      ⟨after.toList, rfl, ?_⟩, String.ofList_toList⟩
    · simp only [String.toList_append, List.append_assoc]
    · rwa [byteCount, String.ofList_toList]
    · rwa [byteCount, String.ofList_toList]

theorem utf8ByteSize_of_slice (h : slice? chars start length = some text) :
    text.utf8ByteSize = length := by
  obtain ⟨_, _, -, -, hlength⟩ := slice?_eq_some.mp h
  exact hlength

/-- A range of a text is made of the bytes that it counts. -/
theorem toByteArray_of_slice (h : slice? chars start length = some text) :
    start + length ≤ chars.utf8ByteSize ∧
      text.toByteArray = chars.toByteArray.extract start (start + length) := by
  obtain ⟨before, after, rfl, rfl, rfl⟩ := slice?_eq_some.mp h
  refine ⟨?_, ?_⟩
  · simp only [String.utf8ByteSize_append]
    omega
  · have hbehind : (before.toByteArray ++ (text.toByteArray ++ after.toByteArray)).extract
        (before.utf8ByteSize + 0) (before.utf8ByteSize + text.utf8ByteSize) =
          (text.toByteArray ++ after.toByteArray).extract 0 text.utf8ByteSize :=
      ByteArray.extract_append_size_add' String.size_toByteArray.symm
    rw [String.append_assoc, String.toByteArray_append, String.toByteArray_append]
    exact (hbehind.trans (ByteArray.extract_append_eq_left String.size_toByteArray.symm)).symm

/-- A range of a range starts where both starts together say. -/
theorem slice?_trans (h : slice? chars start length = some text)
    (hpart : slice? text offset count = some part) :
    slice? chars (start + offset) count = some part := by
  obtain ⟨before, after, rfl, rfl, -⟩ := slice?_eq_some.mp h
  obtain ⟨between, behind, rfl, rfl, hcount⟩ := slice?_eq_some.mp hpart
  refine slice?_eq_some.mpr ⟨before ++ between, behind ++ after, ?_, ?_, hcount⟩
  · simp only [String.append_assoc]
  · simp only [String.utf8ByteSize_append]

end Slices

end MarkPhase
