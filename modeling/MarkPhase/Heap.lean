import MarkPhase.Filenames
import MarkPhase.Journal
import MarkPhase.Shades
import MarkPhase.Texts

/-!
A heap is its graph together with the ledger that marking writes to: the marks
of things, the marks of filenames and the journal.
-/

namespace MarkPhase

structure Ledger where
  marks : MarkTable := {}
  filenames : FilenameTable := {}
  journal : Array Record := #[.newCompartment .atoms "atoms"]

structure Heap where
  graph : Graph := {}
  ledger : Ledger := {}

namespace Ledger

/-- Unmarks every thing and every filename, as between two collections. -/
def clearMarks (ledger : Ledger) : Ledger :=
  { ledger with marks := {}, filenames := ledger.filenames.clearMarks }

end Ledger

namespace Heap

/-- A heap with nothing on it but the atoms compartment. -/
def empty : Heap :=
  {}

def clearMarks (heap : Heap) : Heap :=
  { heap with ledger := heap.ledger.clearMarks }

def isMarked (heap : Heap) (thing : Thing) : Bool :=
  heap.ledger.marks.isMarked thing

/-- The marked things in order. -/
def markedThings (heap : Heap) : List Thing :=
  heap.graph.things.filter heap.isMarked

end Heap

end MarkPhase
