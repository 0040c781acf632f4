import MarkPhase.Things

/-!
Mark colours and the table of shades. A thing is unmarked until it takes the
colour of whoever marks it first, and it keeps that colour until the whole table
is cleared. The table answers for every thing; a thing it holds nothing about is
unmarked.
-/

namespace MarkPhase

inductive Color
  | black
  | gray
deriving DecidableEq, Inhabited

namespace Color

def title : Color → String
  | .black => "Black"
  | .gray => "Gray"

end Color

/-- The mark state of a thing: unmarked, or marked in a colour. -/
inductive Shade
  | unmarked
  | marked (color : Color)
deriving DecidableEq, Inhabited

namespace Shade

def isMarked : Shade → Bool
  | .unmarked => false
  | .marked _ => true

def title : Shade → String
  | .unmarked => "Unmarked"
  | .marked color => color.title

end Shade

/-- A value for every thing, which is `default` where nothing was stored. -/
structure ThingTable (α : Type) where
  cells : Array α := #[]

namespace ThingTable

variable {α : Type} [Inhabited α]

def get (table : ThingTable α) (thing : Thing) : α :=
  table.cells.getD thing.code default

def set (table : ThingTable α) (thing : Thing) (value : α) : ThingTable α :=
  if thing.code < table.cells.size then
    ⟨table.cells.setIfInBounds thing.code value⟩
  else
    ⟨(table.cells ++ Array.replicate (thing.code - table.cells.size) default).push value⟩

theorem get_empty (thing : Thing) : (ThingTable.mk #[] : ThingTable α).get thing = default := by
  simp [get]

theorem get_set (table : ThingTable α) (thing other : Thing) (value : α) :
    (table.set thing value).get other = if thing = other then value else table.get other := by
  by_cases heq : thing = other
  · subst heq
    by_cases hlt : thing.code < table.cells.size
    · simp [set, get, hlt, Array.getD_eq_getD_getElem?]
    · have hsize : table.cells.size + (thing.code - table.cells.size) = thing.code := by omega
      simp only [set, get, hlt, Array.getD_eq_getD_getElem?, if_false, if_true]
      rw [Array.getElem?_push, Array.size_append, Array.size_replicate, hsize, if_pos rfl]
      rfl
  · have hne : thing.code ≠ other.code := fun h => heq (Thing.code_injective h)
    by_cases hlt : thing.code < table.cells.size
    · simp [set, get, hlt, heq, Array.getD_eq_getD_getElem?, hne]
    · simp only [set, get, hlt, heq, Array.getD_eq_getD_getElem?, if_false]
      rw [Array.getElem?_push, Array.getElem?_append]
      simp only [Array.size_append, Array.size_replicate, Array.getElem?_replicate]
      have hsize : table.cells.size + (thing.code - table.cells.size) = thing.code := by omega
      rw [hsize, if_neg (Ne.symm hne)]
      by_cases hin : other.code < table.cells.size
      · rw [if_pos hin]
      · rw [if_neg hin]
        have hout : table.cells[other.code]? = none := Array.getElem?_eq_none (by omega)
        rw [hout]
        split <;> simp

end ThingTable

/-- The shade of every thing. -/
abbrev MarkTable := ThingTable Shade

namespace ThingTable

def isMarked (marks : MarkTable) (thing : Thing) : Bool :=
  (marks.get thing).isMarked

theorem isMarked_set (marks : MarkTable) (thing other : Thing) (color : Color) :
    (marks.set thing (.marked color)).isMarked other = true ↔
      thing = other ∨ marks.isMarked other = true := by
  rw [isMarked, get_set]
  by_cases heq : thing = other
  · simp [heq, Shade.isMarked]
  · simp [heq, isMarked]

/-- Shades an unmarked thing and leaves a marked one as it is. The answer tells
which of the two happened. -/
def mark (marks : MarkTable) (thing : Thing) (color : Color) : Bool × MarkTable :=
  if marks.isMarked thing then (false, marks) else (true, marks.set thing (.marked color))

end ThingTable

end MarkPhase
