import MarkPhase.Budget
import MarkPhase.SegmentedStack

/-!
The tunable numbers of a marker: the bound of its stack, the size and the number
of the segments, and the work of a slice. Zero stands for no bound and for
unlimited work.
-/

namespace MarkPhase

/-- The bytes that one entry takes on the mark stack. -/
def entryBytes : Nat := 16

structure Configuration where
  stackLimit : Nat := Nat.pow 2 20
  segmentSize : Nat := SegmentedStack.defaultSegmentSize entryBytes
  maxCached : Nat := 4
  sliceBudget : Nat := 0
deriving DecidableEq, Inhabited

namespace Configuration

/-- The budget of one slice. -/
def budget (configuration : Configuration) : Budget :=
  if configuration.sliceBudget = 0 then .unlimited else .work configuration.sliceBudget

def text (configuration : Configuration) : String :=
  "MarkerConfig \x7b mark_stack_limit: " ++ toString configuration.stackLimit ++
    ", segment_size: " ++ toString configuration.segmentSize ++
    ", max_cache_segments: " ++ toString configuration.maxCached ++
    ", slice_budget: " ++ toString configuration.sliceBudget ++ " \x7d"

end Configuration

end MarkPhase
