import MarkPhase.Proofs.Sessions

/-!
Markers that keep a chronicle. Beside each move stands one that does the same and writes
down what it does: which things it scans, which things it tries to shade and on whose
behalf, what it offers to the stack and what is refused there, from which depths it takes
entries and which objects it puts off. Without the chronicle it is the move itself.
-/

namespace MarkPhase

/-- What a marker writes down. -/
inductive Event
  | scanned (thing : Thing)
  /-- A thing is to be shaded because `parent` refers to it, or because a call reports it. -/
  | tried (parent : Option Thing) (child : Thing)
  | offered (entry : StackEntry)
  | refused (entry : StackEntry)
  /-- An entry is taken from a stack of this depth. -/
  | taken (depth : Nat)
  /-- An object that was found when the budget ran out goes back on the stack. -/
  | postponed (id : ObjectId)
deriving DecidableEq

/-- A marker at work with its chronicle, the newest event first. -/
structure Chronicle (ω : Type) extends Marking ω where
  events : List Event := []
  /-- Whether everything that has been scanned was marked at that time. -/
  sighted : Bool := true

/-- A move of a marker that keeps a chronicle. -/
abbrev ChronM (ω : Type) := EStateM Fault (Chronicle ω)

namespace ChronM

variable {ω α β : Type}

def tell (event : Event) : ChronM ω Unit :=
  modify fun c => { c with events := event :: c.events }

/-- Looks whether the thing is marked. -/
def sight (thing : Thing) : ChronM ω Unit :=
  modify fun c => { c with sighted := c.sighted && c.marks.isMarked thing }

/-- A move of which nothing is written down. -/
def quietly (m : MarkM ω α) : ChronM ω α := fun c =>
  match m c.toMarking with
  | .ok a t => .ok a { c with toMarking := t }
  | .error fault t => .error fault { c with toMarking := t }

/-! The moves of the marker, each with its part of the chronicle. -/

section Moves

variable (g : Graph)

/-- Tries to shade a child of `parent`. -/
def attempt (parent : Option Thing) (thing : Thing) (color : Color) : ChronM ω Bool := do
  tell (.tried parent thing)
  quietly (MarkM.claim g thing color)

def attemptString (parent : Option Thing) (id : StringId) : ChronM ω Bool :=
  attempt g parent id.thing .black

def noteScan (thing : Thing) : ChronM ω Unit := do
  sight thing
  tell (.scanned thing)
  quietly (MarkM.noteScan thing)

def refuse (entry : StackEntry) : ChronM ω Unit := do
  tell (.refused entry)
  quietly (MarkM.delay entry)

def pushEntry (entry : StackEntry) : ChronM ω Unit := do
  tell (.offered entry)
  if ← quietly (MarkM.isRefused entry) then
    refuse entry
  else
    match (← quietly get).stack.admits with
    | .ok true => quietly (modify fun s => { s with stack := (s.stack.extend entry).notePeak })
    | .ok false => refuse entry
    | .error fault => throw fault

def popEntry : ChronM ω (Option StackEntry) := do
  tell (.taken (← quietly get).stack.size)
  quietly MarkM.popEntry

def pushRange (range : ValueRange) : ChronM ω Unit := do
  if range.stop < range.start then
    throw (.reversedRange range)
  if range.start < range.stop then
    pushEntry (.values range.inWords)

def pushObject (parent : Option Thing) (id : ObjectId) : ChronM ω Unit := do
  if ← attempt g parent id.thing (← quietly MarkM.color) then
    pushEntry (.object id)

def pushTypeObject (parent : Option Thing) (id : TypeObjectId) : ChronM ω Unit := do
  if ← attempt g parent id.thing (← quietly MarkM.color) then
    pushEntry (.typeObject id)

def pushXml (parent : Option Thing) (id : XmlId) : ChronM ω Unit := do
  if ← attempt g parent id.thing (← quietly MarkM.color) then
    pushEntry (.xml id)

def scanLinear : (steps : Nat) → StringId → ChronM ω Unit
  | 0, _ => throw .endless
  | steps + 1, id => do
    noteScan id.thing
    let string ← need (g.string? id)
    if let some base := string.base? then
      if (← need (g.string? base)).isRope then
        throw (.ropeAsBase base)
      if ← attemptString g (some id.thing) base then
        scanLinear steps base

def enterPart (parent : Option Thing) (part : StringId) : ChronM ω (Option StringId) := do
  if ← attemptString g parent part then
    if (← need (g.string? part)).isRope then
      return some part
    else
      scanLinear g (g.strings.size + 1) part
      return none
  else
    return none

def scanRope (depth : Nat) : (steps : Nat) → StringId → ChronM ω Unit
  | 0, _ => throw .endless
  | steps + 1, id => do
    noteScan id.thing
    match (← need (g.string? id)).parts? with
    | none => throw (.notARope id)
    | some (left, right) =>
      let last ← enterPart g (some id.thing) right
      let first ← enterPart g (some id.thing) left
      if let (some _, some waiting) := (first, last) then
        pushEntry (.rope waiting)
      match first.or last with
      | some next => scanRope depth steps next
      | none =>
        if (← quietly get).stack.size ≠ depth then
          match ← popEntry with
          | some (.rope next) => scanRope depth steps next
          | entry => throw (.entryAboveFrame entry)

def pushString (parent : Option Thing) (id : StringId) : ChronM ω Unit := do
  if ← attemptString g parent id then
    if (← need (g.string? id)).isRope then
      scanRope g (← quietly get).stack.size (g.strings.size + 1) id
    else
      scanLinear g (g.strings.size + 1) id

def shadeTwin (id : BaseShapeId) (base : BaseShapeCell) (twinId : BaseShapeId) :
    ChronM ω Unit := do
  tell (.tried (some id.thing) twinId.thing)
  quietly (MarkM.shadeTwin g id base twinId)

def pushOptional {kind : Kind} (push : Ref kind → ChronM ω Unit) :
    Option (Ref kind) → ChronM ω Unit
  | some id => push id
  | none => pure ()

def scanBaseShape (id : BaseShapeId) : ChronM ω Unit := do
  noteScan id.thing
  let base ← need (g.baseShape? id)
  pushOptional (pushObject g (some id.thing)) base.getter
  pushOptional (pushObject g (some id.thing)) base.setter
  pushOptional (pushObject g (some id.thing)) base.parent
  pushOptional (shadeTwin g id base) base.twin

def pushBaseShape (parent : Option Thing) (id : BaseShapeId) : ChronM ω Unit := do
  if ← attempt g parent id.thing (← quietly MarkM.color) then
    scanBaseShape g id

def pushProperty (parent : Option Thing) : PropertyId → ChronM ω Unit
  | .string id => pushString g parent id
  | .object id => pushObject g parent id
  | _ => pure ()

def scanShape : (steps : Nat) → ShapeId → ChronM ω Unit
  | 0, _ => throw .endless
  | steps + 1, id => do
    noteScan id.thing
    let shape ← need (g.shape? id)
    pushBaseShape g (some id.thing) shape.base
    pushProperty g (some id.thing) shape.property
    if let some previous := shape.previous then
      if ← attempt g (some id.thing) previous.thing (← quietly MarkM.color) then
        scanShape steps previous

def pushShape (parent : Option Thing) (id : ShapeId) : ChronM ω Unit := do
  if ← attempt g parent id.thing (← quietly MarkM.color) then
    scanShape g (g.shapes.size + 1) id

def visit (push : Thing → ChronM ω Unit) : Visit → ChronM ω Unit
  | .setLabel label => quietly (MarkM.setLabel label)
  | .report thing => do
    if let some fault := g.objection? thing then
      throw fault
    push thing
    quietly (MarkM.setLabel .blank)
  | .keepFilename name =>
    quietly (modify fun s => { s with filenames := s.filenames.mark name })
  | .broken fault => throw fault

def follow (push : Thing → ChronM ω Unit) (visits : List Visit) : ChronM ω Unit :=
  visits.forM (visit g push)

def pushPlain (parent : Option Thing) (thing : Thing) : ChronM ω Unit :=
  match thing.kind with
  | .object => pushObject g parent ⟨thing.index⟩
  | .string => pushString g parent ⟨thing.index⟩
  | .script => pure ()
  | .shape => pushShape g parent ⟨thing.index⟩
  | .baseShape => pushBaseShape g parent ⟨thing.index⟩
  | .typeObject => pushTypeObject g parent ⟨thing.index⟩
  | .xml => pushXml g parent ⟨thing.index⟩

def pushScript (parent : Option Thing) (id : ScriptId) : ChronM ω Unit := do
  if ← attempt g parent id.thing (← quietly MarkM.color) then
    noteScan id.thing
    follow g (pushPlain g (some id.thing)) (scriptVisits g true id)

def pushThing (parent : Option Thing) (thing : Thing) : ChronM ω Unit :=
  match thing.kind with
  | .script => pushScript g parent ⟨thing.index⟩
  | _ => pushPlain g parent thing

def make (call : MarkingCall) : ChronM ω Unit := do
  follow g (pushThing g none) (call.visits g true (← quietly get).context)

def scanTypeObject (id : TypeObjectId) : ChronM ω Unit := do
  noteScan id.thing
  let type ← need (g.typeObject? id)
  (shownProperties true type).forM (pushProperty g (some id.thing))
  pushOptional (pushObject g (some id.thing)) type.proto
  if let some newScript := type.newScript then
    pushObject g (some id.thing) newScript.function
    pushShape g (some id.thing) newScript.shape
  pushOptional (pushObject g (some id.thing)) type.function
  if !type.isLazy then
    pushOptional (pushObject g (some id.thing)) type.singleton

def scanXml (id : XmlId) : ChronM ω Unit := do
  noteScan id.thing
  follow g (pushThing g (some id.thing)) (xmlVisits g id)

def readValues (owner : ObjectId) (object : ObjectCell) (region : Region) :
    (count index : Nat) → ChronM ω (Option ObjectId)
  | 0, _ => return none
  | count + 1, index => do
    match object.regionValue region index with
    | .string id =>
      pushString g (some owner.thing) id
      readValues owner object region count (index + 1)
    | .object id =>
      if ← attempt g (some owner.thing) id.thing (← quietly MarkM.color) then
        pushRange { owner, region, start := index + 1, stop := index + 1 + count }
        return some id
      else
        readValues owner object region count (index + 1)
    | _ => readValues owner object region count (index + 1)

def scanRange (range : ValueRange) : ChronM ω (Option ObjectId) := do
  let object ← need (g.object? range.owner)
  if object.regionSize range.region < range.stop then
    throw (.rangeOutsideRegion range)
  readValues g range.owner object range.region (range.stop - range.start) range.start

def openObject (id : ObjectId) : ChronM ω (Option ValueRange) := do
  noteScan id.thing
  let object ← need (g.object? id)
  pushTypeObject g (some id.thing) object.type
  pushShape g (some id.thing) object.shape
  let objectClass ← need (g.classOf? object)
  if objectClass = .array then
    return some { owner := id, region := .elements, start := 0,
                  stop := object.regionSize .elements }
  follow g (pushThing g (some id.thing)) (hookVisits object objectClass.hook)
  if !objectClass.native then
    return none
  if object.overflow.isSome then
    pushRange { owner := id, region := .dynamic, start := 0,
                stop := object.regionSize .dynamic }
  return some { owner := id, region := .fixed, start := 0, stop := object.regionSize .fixed }

def scanObject (id : ObjectId) : ChronM ω (Option ObjectId) := do
  match ← openObject g id with
  | some range => scanRange g range
  | none => return none

def process : StackEntry → ChronM ω (Option ObjectId)
  | .object id => scanObject g id
  | .values range => scanRange g range
  | .typeObject id => do
    scanTypeObject g id
    return none
  | .xml id => do
    scanXml g id
    return none
  | .rope id => throw (.leftoverRope id)

def advance : Option ObjectId → ChronM ω (Option ObjectId)
  | some found => scanObject g found
  | none => do
    match ← popEntry with
    | some entry => process g entry
    | none => return none

def drainStack : (units : Nat) → Option ObjectId → Budget → ChronM ω (Bool × Budget)
  | 0, _, _ => throw .endless
  | units + 1, found, budget => do
    if found.isNone && (← quietly get).stack.isEmpty then
      return (true, budget)
    let next ← advance g found
    let budget := budget.step 1
    if budget.isOver then
      if let some id := next then
        tell (.postponed id)
        pushEntry (.object id)
      quietly (do MarkM.record (.overBudget (← get).stack.size))
      return (false, budget)
    drainStack units next budget

def drainDelayed : (units : Nat) → Budget → ChronM ω (Bool × Budget)
  | 0, _ => throw .endless
  | units + 1, budget => do
    let next ← quietly <| modifyGet fun s =>
      let (thing, delayed) := s.delayed.pop
      (thing, { s with delayed })
    match next with
    | none => return (true, budget)
    | some thing =>
      quietly (MarkM.record (.resumedThing thing))
      noteScan thing
      follow g (pushThing g (some thing)) (childVisits g true thing)
      let budget := budget.step 1
      if budget.isOver then
        return (false, budget)
      drainDelayed units budget

def drainRounds (units : Nat) : (rounds : Nat) → Budget → ChronM ω Bool
  | 0, _ => throw .endless
  | rounds + 1, budget => do
    let (stackDone, budget) ← drainStack g units none budget
    if !stackDone then
      return false
    let s ← quietly get
    if s.delayed.isEmpty then
      quietly (MarkM.record (.drained s.statistics))
      return true
    quietly (MarkM.record (.delayedPhase s.delayed.size))
    let (delayedDone, budget) ← drainDelayed g units budget
    if !delayedDone then
      return false
    drainRounds units rounds budget

def drain (budget : Budget) : ChronM ω Bool := do
  quietly (modify fun s => { s with slices := s.slices + 1 })
  let units ← quietly (MarkM.workBound g)
  drainRounds g units units budget

def traceDelayed (budget : Budget) : ChronM ω (Bool × Budget) := do
  drainDelayed g (← quietly (MarkM.workBound g)) budget

/-- A step of a session. -/
def makeStep : Step → ChronM ω Unit
  | .call request => make g request
  | .slice budget => do
    let _ ← drain g budget
    return ()
  | .delayedSlice budget => do
    let _ ← traceDelayed g budget
    return ()

end Moves

/-! What the moves lead to. -/

@[simp]
theorem yields_quietly {m : MarkM ω α} {c : Chronicle ω} {post : α → Chronicle ω → Prop}
    {faults : Fault → Chronicle ω → Prop} : Yields (quietly m) c post faults ↔
      Yields m c.toMarking (fun a t => post a { c with toMarking := t })
        (fun fault t => faults fault { c with toMarking := t }) := by
  unfold Yields quietly
  cases m c.toMarking <;> exact Iff.rfl

@[simp]
theorem yields_tell {event : Event} {c : Chronicle ω} {post : Unit → Chronicle ω → Prop}
    {faults : Fault → Chronicle ω → Prop} : Yields (tell event) c post faults ↔
      post () { c with events := event :: c.events } :=
  Iff.rfl

@[simp]
theorem yields_sight {thing : Thing} {c : Chronicle ω} {post : Unit → Chronicle ω → Prop}
    {faults : Fault → Chronicle ω → Prop} : Yields (sight thing) c post faults ↔
      post () { c with sighted := c.sighted && c.marks.isMarked thing } :=
  Iff.rfl

/-- An entry is offered, and then it is refused or it takes its place on the stack. -/
theorem yields_pushEntry_of {entry : StackEntry} {c : Chronicle ω}
    {post : Unit → Chronicle ω → Prop} {faults : Fault → Chronicle ω → Prop}
    (hrefuse : ∀ watcher, Yields (refuse entry)
      { c with events := .offered entry :: c.events, watcher } post faults)
    (hextend : ∀ watcher, c.stack.admits = .ok true →
      post () { c with
        events := .offered entry :: c.events, watcher
        stack := (c.stack.extend entry).notePeak })
    (hfault : ∀ fault d, c.stack.admits = .error fault → faults fault d) :
    Yields (pushEntry entry) c post faults := by
  have hasked : ∀ answer watcher, Yields (do
        if answer = true then refuse entry else
          match (← quietly get).stack.admits with
          | .ok true =>
            quietly (modify fun s => { s with stack := (s.stack.extend entry).notePeak })
          | .ok false => refuse entry
          | .error fault => throw fault)
      { c with events := .offered entry :: c.events, watcher } post faults := by
    intro answer watcher
    refine yields_ite (fun _ => hrefuse watcher) fun _ => ?_
    rw [yields_bind, yields_quietly, yields_get]
    cases hadmits : c.stack.admits with
    | error fault => exact hfault fault _ hadmits
    | ok admitted =>
      cases admitted with
      | false => exact hrefuse watcher
      | true => exact hextend watcher hadmits
  rw [pushEntry, yields_bind, yields_tell, yields_bind, yields_quietly, MarkM.isRefused,
    yields_modifyGet]
  cases hwatcher : c.watcher with
  | none => exact hasked false c.watcher
  | some watcher => exact hasked _ _

/-- The owner of a refused entry is delayed unless it is already. -/
theorem yields_refuse_of {entry : StackEntry} {c : Chronicle ω}
    {post : Unit → Chronicle ω → Prop} {faults : Fault → Chronicle ω → Prop}
    (hmarked : c.marks.isMarked entry.owner = true)
    (hdelay : ∀ delays journal, post () { c with
      events := .refused entry :: c.events, delays, journal
      delayed := (c.delayed.add entry.owner).2 }) : Yields (refuse entry) c post faults := by
  rw [refuse, yields_bind, yields_tell, yields_quietly, MarkM.delay, yields_bind, yields_get]
  refine yields_ite (fun _ => ?_) fun hnot => absurd hmarked hnot
  rw [yields_bind, yields_modifyGet]
  refine yields_ite (fun _ => ?_) fun _ => hdelay _ _
  rw [yields_bind, yields_modify, MarkM.record, yields_modify]
  exact hdelay _ _

end ChronM

end MarkPhase
