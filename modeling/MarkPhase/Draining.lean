import MarkPhase.Scanning

/-!
Draining the mark stack in slices. One unit of work is one entry taken from the
stack, one object scanned where it was found, or one delayed thing traced. Every
unit uses up some of a store of work that is fixed by the size of the graph and
of the pending work, so a drain ends whatever is refused on the way.
-/

namespace MarkPhase

namespace MarkM

variable {ω : Type} (g : Graph)

/-- Scans what an entry stands for. An object found among its values is handed
back. -/
def process : StackEntry → MarkM ω (Option ObjectId)
  | .object id => scanObject g id
  | .values range => scanRange g range
  | .typeObject id => do
    scanTypeObject g id
    return none
  | .xml id => do
    scanXml g id
    return none
  | .rope id => throw (.leftoverRope id)

/-- One unit of work: the object found last, or else the newest entry. -/
def advance : Option ObjectId → MarkM ω (Option ObjectId)
  | some found => scanObject g found
  | none => do
    match ← popEntry with
    | some entry => process g entry
    | none => return none

/-- Works on the stack until it is empty, or until the budget runs out. An
object found when it runs out goes back on the stack. -/
def drainStack : (units : Nat) → Option ObjectId → Budget → MarkM ω (Bool × Budget)
  | 0, _, _ => throw .endless
  | units + 1, found, budget => do
    if found.isNone && (← get).stack.isEmpty then
      return (true, budget)
    let next ← advance g found
    let budget := budget.step 1
    if budget.isOver then
      if let some id := next then
        pushEntry (.object id)
      record (.overBudget (← get).stack.size)
      return (false, budget)
    drainStack units next budget

/-- Traces the children of delayed things until none is left, or until the
budget runs out. -/
def drainDelayed : (units : Nat) → Budget → MarkM ω (Bool × Budget)
  | 0, _ => throw .endless
  | units + 1, budget => do
    let next ← modifyGet fun s =>
      let (thing, delayed) := s.delayed.pop
      (thing, { s with delayed })
    match next with
    | none => return (true, budget)
    | some thing =>
      record (.resumedThing thing)
      noteScan thing
      follow g (pushThing g) (childVisits g true thing)
      let budget := budget.step 1
      if budget.isOver then
        return (false, budget)
      drainDelayed units budget

/-- More units than any run over the pending work takes. A thing that is not
marked yet stands for at most four, an entry for at most two, a delayed thing for
one. -/
def workBound : MarkM ω Nat := do
  let s ← get
  return 4 * g.thingCount + 2 * s.stack.size + s.delayed.size + 3

/-- Alternates between the stack and the delayed things until both are empty. -/
def drainRounds (units : Nat) : (rounds : Nat) → Budget → MarkM ω Bool
  | 0, _ => throw .endless
  | rounds + 1, budget => do
    let (stackDone, budget) ← drainStack g units none budget
    if !stackDone then
      return false
    let s ← get
    if s.delayed.isEmpty then
      record (.drained s.statistics)
      return true
    record (.delayedPhase s.delayed.size)
    let (delayedDone, budget) ← drainDelayed g units budget
    if !delayedDone then
      return false
    drainRounds units rounds budget

/-- One slice: marks until nothing is left, or until the budget runs out. The
answer tells which; the next slice goes on where this one stopped. -/
def drain (budget : Budget) : MarkM ω Bool := do
  modify fun s => { s with slices := s.slices + 1 }
  let units ← workBound g
  drainRounds g units units budget

/-- Traces the children of delayed things within a budget. -/
def traceDelayed (budget : Budget) : MarkM ω (Bool × Budget) := do
  drainDelayed g (← workBound g) budget

/-- Slices with the same budget each, until one of them leaves nothing. The
answer is the number of slices, those made before included. -/
def drainSlices (budget : Budget) : (slices made : Nat) → MarkM ω Nat
  | 0, _ => throw .endless
  | slices + 1, made => do
    if ← drain g budget then
      return made + 1
    drainSlices budget slices (made + 1)

def drainAll (budget : Budget) : MarkM ω Nat := do
  drainSlices g budget (← workBound g) 0

end MarkM

end MarkPhase
