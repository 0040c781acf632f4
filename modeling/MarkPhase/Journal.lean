import MarkPhase.Entries
import MarkPhase.Statistics

/-!
The journal of a heap: what is recorded about compartments and marking runs for
diagnosis, apart from any timing. Records are kept as data and worded when read.
-/

namespace MarkPhase

inductive Record
  | newCompartment (id : CompartmentId) (name : String)
  /-- The owner of an entry that was refused waits from now on. -/
  | delayedOwner (entry : StackEntry)
  | resumedThing (thing : Thing)
  | overBudget (depth : Nat)
  | delayedPhase (count : Nat)
  | drained (statistics : Statistics)
deriving DecidableEq

namespace Record

/-- The record as one line: its level, its topic and its message. -/
def line : Record → String
  | .newCompartment id name =>
    "TRACE gc new compartment " ++ id.text ++ " (" ++ name ++ ")"
  | .delayedOwner entry => "TRACE gc-mark delayed marking children of " ++ entry.owner.text
  | .resumedThing thing => "TRACE gc-mark marking delayed children of " ++ thing.text
  | .overBudget depth =>
    "DEBUG gc Mark slice over budget, " ++ toString depth ++ " entries left"
  | .delayedPhase count => "DEBUG gc Marking children of " ++ toString count ++ " delayed things"
  | .drained statistics => "DEBUG gc Mark stack drained: " ++ statistics.text

end Record

end MarkPhase
