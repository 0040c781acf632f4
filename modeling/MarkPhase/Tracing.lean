import MarkPhase.Calls
import MarkPhase.Shades

/-!
Tracers that do not mark: they receive every reported edge together with its
label. A tracer that explores goes on, at the first report of a thing, with
the children of that thing before anything else; each thing is entered once, so
an exploration ends.
-/

namespace MarkPhase

/-- A reported thing and the label it was reported under. -/
structure Edge where
  thing : Thing
  label : Label
deriving DecidableEq, Inhabited

/-- The edges a tracer has received, with its context. -/
structure Tracer where
  context : Context := {}
  edges : Array Edge := #[]
  /-- The things an exploring tracer has entered. -/
  entered : ThingTable Bool := {}

/-- A move of a tracer, which may fail. -/
abbrev TraceM := EStateM Fault Tracer

namespace TraceM

def setLabel (label : Label) : TraceM Unit :=
  modify fun s => { s with context := { s.context with label } }

def receive (thing : Thing) : TraceM Unit :=
  modify fun s => { s with edges := s.edges.push ⟨thing, s.context.label⟩ }

def visit (g : Graph) : Visit → TraceM Unit
  | .setLabel label => setLabel label
  | .report thing => do
    if let some fault := g.objection? thing then
      throw fault
    receive thing
    setLabel .blank
  | .keepFilename _ => pure ()
  | .broken fault => throw fault

/-- Makes the visits of a call, receiving every edge. -/
def make (g : Graph) (call : MarkingCall) : TraceM Unit := do
  (call.visits g false (← get).context).forM (visit g)

/-- Enters a thing for the first time and tells whether this was it. -/
def enter (thing : Thing) : TraceM Bool :=
  modifyGet fun s =>
    if s.entered.get thing then
      (false, s)
    else
      (true, { s with entered := s.entered.set thing true })

/-- What is left to do in an exploration. -/
inductive Task
  | visit (visit : Visit)
  /-- The report of a thing is over, and with it that of everything below. -/
  | leave

/-- The tasks of a report: to receive the edge and, at the first report of the
thing, to explore what is below it. -/
def explored (g : Graph) (thing : Thing) : TraceM (List Visit) := do
  receive thing
  if !g.contains thing then
    throw .outOfBounds
  if ← enter thing then
    return childVisits g false thing
  return []

/-- Explores until no task is left, entering at most `entries` things. -/
def explore (g : Graph) (entries : Nat) (tasks : List Task) : TraceM Unit :=
  match tasks with
  | [] => pure ()
  | .leave :: rest => do
    setLabel .blank
    explore g entries rest
  | .visit (.report thing) :: rest => do
    if let some fault := g.objection? thing then
      throw fault
    match ← explored g thing with
    | [] =>
      setLabel .blank
      explore g entries rest
    | below =>
      match entries with
      | 0 => throw .endless
      | entries + 1 => explore g entries (below.map .visit ++ .leave :: rest)
  | .visit other :: rest => do
    visit g other
    explore g entries rest
termination_by (entries, tasks.length)

/-- Makes the visits of a call and explores whatever they report. -/
def makeExploring (g : Graph) (call : MarkingCall) : TraceM Unit := do
  let visits := call.visits g false (← get).context
  explore g g.thingCount (visits.map .visit)

/-- Receives an edge outside any marking call and explores below it. -/
def receiveExploring (g : Graph) (thing : Thing) : TraceM Unit := do
  let below ← explored g thing
  explore g g.thingCount (below.map .visit)

end TraceM

end MarkPhase
