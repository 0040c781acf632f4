/-!
The table of script filenames. Names are not things of the heap: a script keeps
its name by marking the name's entry during a marking run, and a sweep drops the
entries that nobody marked.
-/

namespace MarkPhase

structure FilenameTable where
  /-- Each name once, with its mark. -/
  entries : List (String × Bool) := []
deriving DecidableEq, Inhabited

namespace FilenameTable

def contains (table : FilenameTable) (name : String) : Bool :=
  table.entries.any (·.1 == name)

/-- Adds an unmarked entry unless the name already has one. -/
def intern (table : FilenameTable) (name : String) : FilenameTable :=
  if table.contains name then table else ⟨table.entries ++ [(name, false)]⟩

/-- Marks the entry of a name; a name without an entry is ignored. -/
def mark (table : FilenameTable) (name : String) : FilenameTable :=
  ⟨table.entries.map fun entry => if entry.1 == name then (name, true) else entry⟩

def isMarked (table : FilenameTable) (name : String) : Bool :=
  table.entries.any fun entry => entry.1 == name && entry.2

def size (table : FilenameTable) : Nat :=
  table.entries.length

def clearMarks (table : FilenameTable) : FilenameTable :=
  ⟨table.entries.map fun entry => (entry.1, false)⟩

/-- The number of entries dropped, and the table of those that were marked. -/
def sweep (table : FilenameTable) : Nat × FilenameTable :=
  let kept := table.entries.filter (·.2)
  (table.entries.length - kept.length, ⟨kept⟩)

end FilenameTable

end MarkPhase
