import MarkPhase.Entries
import MarkPhase.Memory

/-!
The ways an operation can fail. Each cause has its own constructor and its own
wording. A failing operation stops where it stands; nothing recovers from it.
-/

namespace MarkPhase

inductive Fault
  /-- A reference names a thing the heap does not have. -/
  | outOfBounds
  /-- A length or a count no longer fits its word. -/
  | overflow
  /-- More was asked for in one piece than may be asked for. -/
  | capacityOverflow
  /-- There is no memory for what was asked for, and the program is stopped. -/
  | outOfMemory
  | dependentRange (start stop : Nat) (base : StringId)
  | ropeWithoutChars (id : StringId)
  | ownedTwin (id : BaseShapeId)
  | slotOutOfSpan (slot span : Nat)
  | emptySegment
  /-- A marking call was given a thing that does not exist. -/
  | unknownThing (thing : Thing)
  /-- A marking call was given a thing of a compartment that does not exist. -/
  | foreignCompartment (thing : Thing) (compartment : CompartmentId)
  | delayedUnmarked (thing : Thing)
  | reversedRange (range : ValueRange)
  | rangeOutsideRegion (range : ValueRange)
  | ropeAsBase (id : StringId)
  | notARope (id : StringId)
  /-- A rope walk found something other than a rope above its own frame. -/
  | entryAboveFrame (entry : Option StackEntry)
  /-- A rope walk left a rope on the stack. -/
  | leftoverRope (id : StringId)
  | unequalTwins (base twin : BaseShapeId)
  /-- A walk came back to where it had been and would never end. -/
  | endless
deriving DecidableEq, Inhabited

namespace Fault

def message : Fault → String
  | .outOfBounds => "index out of bounds"
  | .overflow => "arithmetic overflow"
  | .capacityOverflow => "capacity overflow"
  | .outOfMemory => "memory allocation failed"
  | .dependentRange start stop base =>
    "dependent range " ++ toString start ++ ".." ++ toString stop ++ " is not valid for " ++
      base.text
  | .ropeWithoutChars id => id.text ++ " is a rope and has no linear characters"
  | .ownedTwin id => id.text ++ " is itself owned"
  | .slotOutOfSpan slot span => "slot " ++ toString slot ++ " out of span " ++ toString span
  | .emptySegment => "segment size must be positive"
  | .unknownThing thing => thing.text ++ " is not a thing of this heap"
  | .foreignCompartment thing compartment =>
    thing.text ++ " belongs to " ++ compartment.text ++ " of another runtime"
  | .delayedUnmarked thing => "delaying unmarked " ++ thing.text
  | .reversedRange range => "range ends before it starts in " ++ range.owner.text
  | .rangeOutsideRegion range => "range leaves its region in " ++ range.owner.text
  | .ropeAsBase id => id.text ++ " is a rope below a linear string"
  | .notARope id => id.text ++ " is not a rope"
  | .entryAboveFrame none => "rope scan found None above its frame"
  | .entryAboveFrame (some entry) =>
    "rope scan found Some(" ++ entry.text ++ ") above its frame"
  | .leftoverRope id => id.text ++ " left on the stack by a rope scan"
  | .unequalTwins base twin => base.text ++ " and " ++ twin.text ++ " differ"
  | .endless => "the walk never ends"

end Fault

/-- What a request for `count` items of `size` bytes in one piece ends in, if it is not
met. A request that may not be made fails; one that memory cannot meet stops the
program. -/
def allocationFault? (count size : Nat) : Option Fault :=
  if fitsMemory count size then none
  else if count * size < oversizedBytes then some .outOfMemory
  else some .capacityOverflow

/-- Lays claim to `count` items of `size` bytes in one piece. -/
def allocate {σ : Type} (count size : Nat) : EStateM Fault σ Unit :=
  match allocationFault? count size with
  | none => pure ()
  | some fault => throw fault

theorem allocationFault?_eq_none {count size : Nat} :
    allocationFault? count size = none ↔ fitsMemory count size = true := by
  unfold allocationFault?
  split
  · simp [*]
  · split <;> simp [*]

theorem fitsMemory_of_allocationFault? {count size : Nat} {fault : Fault}
    (h : allocationFault? count size = some fault) : fitsMemory count size = false := by
  cases hfits : fitsMemory count size with
  | false => rfl
  | true =>
    rw [allocationFault?_eq_none.mpr hfits] at h
    cases h

/-- What does not fit memory is not met. -/
theorem exists_allocationFault? {count size : Nat} (h : fitsMemory count size = false) :
    ∃ fault, allocationFault? count size = some fault := by
  cases hfault : allocationFault? count size with
  | some fault => exact ⟨fault, rfl⟩
  | none =>
    rw [allocationFault?_eq_none.mp hfault] at h
    cases h

/-- The value of a look-up that has to succeed. -/
def need {σ α : Type} : Option α → EStateM Fault σ α
  | some value => pure value
  | none => throw .outOfBounds

end MarkPhase
