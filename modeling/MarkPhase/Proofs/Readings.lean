import Mathlib.Logic.Relation
import MarkPhase.Proofs.Slices
import MarkPhase.Proofs.WellFormed

/-!
What strings read as. A flat string reads as its own characters, a dependent string as a
range of what its base reads as, and a rope as its left part followed by its right part;
bases and parts are older than what is made from them. The program goes about it in other
ways: the characters of a dependent string are taken from the bottom of its bases with all
the starts added up, and a rope is flattened with a list of pending strings. Both come to
what the string reads as.
-/

namespace MarkPhase

namespace Graph

variable {g g' : Graph} {id : StringId} {text part : String} {start length : Nat}

/-- The string is there and has its characters in one piece, its own or those of a base. -/
def Flat (g : Graph) (id : StringId) : Prop :=
  ∃ cell, g.string? id = some cell ∧ cell.isRope = false

theorem Flat.not_rope (h : g.Flat id) {cell : StringCell} (hid : g.string? id = some cell)
    {left right : StringId} (hlayout : cell.layout = .rope left right length) : False := by
  obtain ⟨other, hother, hflat⟩ := h
  obtain rfl := Option.some.inj (hid.symm.trans hother)
  simp [StringCell.isRope, hlayout] at hflat

/-- Only a string in one piece has linear characters. -/
theorem flat_of_linearChars (h : g.linearChars id = .ok text) : g.Flat id := by
  unfold linearChars at h
  cases hid : g.string? id with
  | none => simp only [hid, reduceCtorEq] at h
  | some cell =>
    refine ⟨cell, hid, ?_⟩
    cases hlayout : cell.layout with
    | linear => rw [StringCell.isRope, hlayout]
    | dependent => rw [StringCell.isRope, hlayout]
    | rope => simp only [hid, hlayout, reduceCtorEq] at h

/-- What a string reads as. -/
inductive Reads (g : Graph) : StringId → String → Prop
  | linear {id : StringId} {cell : StringCell} {chars : String} : g.string? id = some cell →
      cell.layout = .linear chars → Reads g id chars
  | dependent {id base : StringId} {cell : StringCell} {start length : Nat}
      {whole text : String} : g.string? id = some cell →
      cell.layout = .dependent base start length → base.index < id.index → g.Flat base →
      Reads g base whole → slice? whole start length = some text → Reads g id text
  | rope {id left right : StringId} {cell : StringCell} {length : Nat} {first second : String} :
      g.string? id = some cell → cell.layout = .rope left right length →
      left.index < id.index → right.index < id.index → Reads g left first →
      Reads g right second → length = first.utf8ByteSize + second.utf8ByteSize →
      Reads g id (first ++ second)

/-- What a layout says of the text of its string. -/
def Explains (g : Graph) (id : StringId) (text : String) : Layout → Prop
  | .linear chars => text = chars
  | .dependent base start length => base.index < id.index ∧ g.Flat base ∧
      ∃ whole, g.Reads base whole ∧ slice? whole start length = some text
  | .rope left right length => left.index < id.index ∧ right.index < id.index ∧
      ∃ first second, g.Reads left first ∧ g.Reads right second ∧
        length = first.utf8ByteSize + second.utf8ByteSize ∧ text = first ++ second

namespace Reads

theorem explained (h : g.Reads id text) {cell : StringCell} (hid : g.string? id = some cell) :
    g.Explains id text cell.layout := by
  cases h with
  | linear hcell hlayout =>
    obtain rfl := Option.some.inj (hid.symm.trans hcell)
    rw [hlayout]
    exact rfl
  | dependent hcell hlayout hlt hflat hwhole hslice =>
    obtain rfl := Option.some.inj (hid.symm.trans hcell)
    rw [hlayout]
    exact ⟨hlt, hflat, _, hwhole, hslice⟩
  | rope hcell hlayout hleft hright hfirst hsecond hlength =>
    obtain rfl := Option.some.inj (hid.symm.trans hcell)
    rw [hlayout]
    exact ⟨hleft, hright, _, _, hfirst, hsecond, hlength, rfl⟩

theorem exists_cell (h : g.Reads id text) : ∃ cell, g.string? id = some cell := by
  cases h with
  | linear hcell => exact ⟨_, hcell⟩
  | dependent hcell => exact ⟨_, hcell⟩
  | rope hcell => exact ⟨_, hcell⟩

theorem contains (h : g.Reads id text) : g.contains id.thing = true := by
  obtain ⟨cell, hcell⟩ := h.exists_cell
  exact contains_of_getElem? rfl hcell

/-- The cached length of a string is that of its text. -/
theorem length_eq (h : g.Reads id text) {cell : StringCell} (hid : g.string? id = some cell) :
    cell.length = text.utf8ByteSize := by
  have hexplained := h.explained hid
  unfold StringCell.length
  cases hlayout : cell.layout with
  | linear chars =>
    rw [hlayout] at hexplained
    exact congrArg String.utf8ByteSize hexplained.symm
  | dependent base start length =>
    rw [hlayout] at hexplained
    obtain ⟨-, -, whole, -, hslice⟩ := hexplained
    exact (utf8ByteSize_of_slice hslice).symm
  | rope left right length =>
    rw [hlayout] at hexplained
    obtain ⟨-, -, first, second, -, -, hlength, rfl⟩ := hexplained
    rw [String.utf8ByteSize_append, ← hlength]

/-- A string reads the same as long as its cell and those below it stay. -/
theorem mono (hsame : ∀ id cell, g.string? id = some cell → g'.string? id = some cell)
    (h : g.Reads id text) : g'.Reads id text := by
  have hflat : ∀ {id}, g.Flat id → g'.Flat id :=
    fun ⟨cell, hcell, hrope⟩ => ⟨cell, hsame _ cell hcell, hrope⟩
  induction h with
  | linear hcell hlayout => exact .linear (hsame _ _ hcell) hlayout
  | dependent hcell hlayout hlt hbase _ hslice ih =>
    exact .dependent (hsame _ _ hcell) hlayout hlt (hflat hbase) ih hslice
  | rope hcell hlayout hleft hright _ _ hlength ihleft ihright =>
    exact .rope (hsame _ _ hcell) hlayout hleft hright ihleft ihright hlength

/-- A range of a string is found at the bottom of its bases. -/
theorem readRange (h : g.Reads id text) (hflat : g.Flat id)
    (hslice : slice? text start length = some part) : g.readRange id start length = .ok part := by
  induction h generalizing start length part with
  | linear hcell hlayout =>
    rw [Graph.readRange, hcell]
    simp only [hlayout, hslice]
  | dependent hcell hlayout hlt hbase _ hwhole ih =>
    rw [Graph.readRange, hcell]
    simp only [hlayout, if_pos hlt]
    exact ih hbase (slice?_trans hwhole hslice)
  | rope hcell hlayout => exact absurd hlayout (hflat.not_rope hcell)

/-- The characters of a string that is not a rope are what it reads as. -/
theorem linearChars (h : g.Reads id text) (hflat : g.Flat id) : g.linearChars id = .ok text := by
  obtain ⟨cell, hid⟩ := h.exists_cell
  have hexplained := h.explained hid
  rw [Graph.linearChars, hid]
  cases hlayout : cell.layout with
  | linear chars =>
    rw [hlayout] at hexplained
    simp only [hlayout]
    exact congrArg Except.ok hexplained.symm
  | dependent base start length =>
    rw [hlayout] at hexplained
    obtain ⟨-, hbase, whole, hwhole, hslice⟩ := hexplained
    simp only [hlayout]
    exact hwhole.readRange hbase hslice
  | rope => exact absurd hlayout (hflat.not_rope hid)

/-- Flattening puts down what the first of the pending strings reads as and goes on. -/
theorem flattenPending (h : g.Reads id text) (rest : List StringId) (written : String) :
    g.flattenPending (id :: rest) written = g.flattenPending rest (written ++ text) := by
  induction h generalizing rest written with
  | @linear id cell chars hcell hlayout =>
    have hchars : g.linearChars id = .ok chars :=
      linearChars (.linear hcell hlayout) ⟨cell, hcell, by rw [StringCell.isRope, hlayout]⟩
    rw [Graph.flattenPending, hcell]
    simp only [hlayout, hchars]
  | @dependent id base cell _ _ _ text hcell hlayout hlt hbase hwhole hslice =>
    have hchars : g.linearChars id = .ok text :=
      linearChars (.dependent hcell hlayout hlt hbase hwhole hslice)
        ⟨cell, hcell, by rw [StringCell.isRope, hlayout]⟩
    rw [Graph.flattenPending, hcell]
    simp only [hlayout, hchars]
  | rope hcell hlayout hleft hright _ _ _ ihleft ihright =>
    rw [Graph.flattenPending, hcell]
    simp only [hlayout, dif_pos (And.intro hleft hright)]
    rw [ihleft, ihright, String.append_assoc]

/-- A string whose text fits in memory is flattened to what it reads as. -/
theorem flatten (h : g.Reads id text) (hfits : fitsMemory text.utf8ByteSize 1 = true) :
    g.flatten id = .ok text := by
  obtain ⟨cell, hcell⟩ := h.exists_cell
  rw [Graph.flatten, hcell]
  simp only [h.length_eq hcell, allocationFault?_eq_none.mpr hfits]
  rw [h.flattenPending, Graph.flattenPending, String.empty_append]

end Reads

/-! What a string is made of. -/

/-- The second string is the base of the first. -/
def BasedOn (g : Graph) (id base : StringId) : Prop :=
  ∃ cell, g.string? id = some cell ∧ cell.base? = some base

/-- The second string is the base of the first or one of its two parts. -/
def MadeOf (g : Graph) (id part : StringId) : Prop :=
  ∃ cell, g.string? id = some cell ∧ part.thing ∈ cell.references

namespace Reads

variable {other : StringId}

/-- What a string is made of is older than the string, and can be read. -/
theorem older (h : g.Reads id text) (hmade : g.MadeOf id other) :
    other.index < id.index ∧ ∃ text, g.Reads other text := by
  obtain ⟨cell, hid, hmem⟩ := hmade
  have hexplained := h.explained hid
  unfold StringCell.references at hmem
  cases hlayout : cell.layout with
  | linear => simp only [hlayout, List.not_mem_nil] at hmem
  | dependent base start length =>
    rw [hlayout] at hmem hexplained
    obtain ⟨hlt, -, whole, hwhole, -⟩ := hexplained
    obtain rfl := Ref.thing_injective (List.mem_singleton.mp hmem)
    exact ⟨hlt, whole, hwhole⟩
  | rope left right length =>
    rw [hlayout] at hmem hexplained
    obtain ⟨hleft, hright, first, second, hfirst, hsecond, -⟩ := hexplained
    rcases List.mem_pair.mp hmem with heq | heq
    · obtain rfl := Ref.thing_injective heq
      exact ⟨hleft, first, hfirst⟩
    · obtain rfl := Ref.thing_injective heq
      exact ⟨hright, second, hsecond⟩

theorem older_of_path (h : g.Reads id text) (hpath : Relation.TransGen g.MadeOf id other) :
    other.index < id.index ∧ ∃ text, g.Reads other text := by
  induction hpath with
  | single hmade => exact h.older hmade
  | tail _ hmade ih =>
    obtain ⟨hlt, _, hreads⟩ := ih
    obtain ⟨hlt', hreads'⟩ := hreads.older hmade
    exact ⟨Nat.lt_trans hlt' hlt, hreads'⟩

/-- No string is made of itself, however indirectly. -/
theorem not_madeOf_self (h : g.Reads id text) : ¬ Relation.TransGen g.MadeOf id id :=
  fun hpath => Nat.lt_irrefl _ (h.older_of_path hpath).1

/-- The base of a string has its characters in one piece. -/
theorem flat_base (h : g.Reads id text) (hbase : g.BasedOn id other) : g.Flat other := by
  obtain ⟨cell, hid, hmem⟩ := hbase
  have hexplained := h.explained hid
  unfold StringCell.base? at hmem
  cases hlayout : cell.layout with
  | dependent base start length =>
    rw [hlayout] at hmem hexplained
    obtain rfl := Option.some.inj hmem
    exact hexplained.2.1
  | _ => simp only [hlayout, reduceCtorEq] at hmem

/-- From base to base one gets to a string with characters of its own. -/
theorem exists_bottom (h : g.Reads id text) (hflat : g.Flat id) :
    ∃ bottom cell chars, Relation.ReflTransGen g.BasedOn id bottom ∧
      g.string? bottom = some cell ∧ cell.layout = .linear chars := by
  induction h with
  | @linear id cell chars hcell hlayout => exact ⟨id, cell, chars, .refl, hcell, hlayout⟩
  | dependent hcell hlayout _ hbase _ _ ih =>
    obtain ⟨bottom, cell, chars, hpath, hbottom⟩ := ih hbase
    exact ⟨bottom, cell, chars, .head ⟨_, hcell, by rw [StringCell.base?, hlayout]⟩ hpath,
      hbottom⟩
  | rope hcell hlayout => exact absurd hlayout (hflat.not_rope hcell)

end Reads

/-! Graphs on which every string can be read. -/

/-- Every string reads as some text. -/
def Readable (g : Graph) : Prop :=
  ∀ id cell, g.string? id = some cell → ∃ text, g.Reads id text

theorem Readable.of_eq (h : g.Readable) (hstrings : g'.strings = g.strings) : g'.Readable := by
  have hsame : ∀ id, g'.string? id = g.string? id := fun id => by rw [string?, hstrings, string?]
  intro id cell hid
  rw [hsame] at hid
  obtain ⟨text, hreads⟩ := h id cell hid
  exact ⟨text, hreads.mono fun id cell hid => (hsame id).trans hid⟩

/-- The graph with one string more. -/
def withString (g : Graph) (cell : StringCell) : Graph :=
  { g with strings := g.strings.push cell }

theorem string?_withString {cell other : StringCell} (hid : g.string? id = some other) :
    (g.withString cell).string? id = some other := by
  obtain ⟨hlt, -⟩ := Array.getElem?_eq_some_iff.mp hid
  change (g.strings.push cell)[id.index]? = some other
  rw [Array.getElem?_push, if_neg (Nat.ne_of_lt hlt)]
  exact hid

theorem string?_withString_new (g : Graph) (cell : StringCell) :
    (g.withString cell).string? ⟨g.strings.size⟩ = some cell :=
  Array.getElem?_push_size

/-- A new string that can be read leaves every string readable. -/
theorem Readable.push (h : g.Readable) {cell : StringCell}
    (hnew : ∃ text, (g.withString cell).Reads ⟨g.strings.size⟩ text) :
    (g.withString cell).Readable := by
  intro id other hid
  by_cases hlast : id.index = g.strings.size
  · obtain rfl : id = ⟨g.strings.size⟩ := by rw [← hlast]
    exact hnew
  · have hold : g.string? id = some other := by
      have hid' : (g.strings.push cell)[id.index]? = some other := hid
      rwa [Array.getElem?_push, if_neg hlast] at hid'
    obtain ⟨text, hreads⟩ := h id other hold
    exact ⟨text, hreads.mono fun _ _ => string?_withString⟩

end Graph

end MarkPhase
