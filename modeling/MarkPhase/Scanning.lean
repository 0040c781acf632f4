import MarkPhase.Marker

/-!
How the marker scans each kind of thing. Objects, types and XML nodes wait on
the stack; strings, shapes, base shapes and scripts are scanned as soon as they
are shaded. Walks along lineages, bases and ropes shade one thing a step, so
their number of steps is bounded by the number of things of that kind.
-/

namespace MarkPhase

namespace MarkM

variable {ω : Type} (g : Graph)

/-! ### Things that wait -/

def pushObject (id : ObjectId) : MarkM ω Unit := do
  if ← claim g id.thing (← color) then
    pushEntry (.object id)

def pushTypeObject (id : TypeObjectId) : MarkM ω Unit := do
  if ← claim g id.thing (← color) then
    pushEntry (.typeObject id)

def pushXml (id : XmlId) : MarkM ω Unit := do
  if ← claim g id.thing (← color) then
    pushEntry (.xml id)

/-! ### Strings -/

/-- Scans a shaded linear string and shades and scans the bases below it. -/
def scanLinear : (steps : Nat) → StringId → MarkM ω Unit
  | 0, _ => throw .endless
  | steps + 1, id => do
    noteScan id.thing
    let string ← need (g.string? id)
    if let some base := string.base? then
      if (← need (g.string? base)).isRope then
        throw (.ropeAsBase base)
      if ← claimString g base then
        scanLinear steps base

/-- Shades one part of a rope. A linear part is scanned at once; a part that is
itself a rope is handed back. -/
def enterPart (part : StringId) : MarkM ω (Option StringId) := do
  if ← claimString g part then
    if (← need (g.string? part)).isRope then
      return some part
    else
      scanLinear g (g.strings.size + 1) part
      return none
  else
    return none

/-- Walks a shaded rope, the left part first. Right parts set aside lie on the
stack above `depth` and are taken from there in turn. -/
def scanRope (depth : Nat) : (steps : Nat) → StringId → MarkM ω Unit
  | 0, _ => throw .endless
  | steps + 1, id => do
    noteScan id.thing
    match (← need (g.string? id)).parts? with
    | none => throw (.notARope id)
    | some (left, right) =>
      let last ← enterPart g right
      let first ← enterPart g left
      if let (some _, some waiting) := (first, last) then
        pushEntry (.rope waiting)
      match first.or last with
      | some next => scanRope depth steps next
      | none =>
        if (← get).stack.size ≠ depth then
          match ← popEntry with
          | some (.rope next) => scanRope depth steps next
          | entry => throw (.entryAboveFrame entry)

/-- Shades a string and scans it with the strings it is made of. -/
def pushString (id : StringId) : MarkM ω Unit := do
  if ← claimString g id then
    if (← need (g.string? id)).isRope then
      scanRope g (← get).stack.size (g.strings.size + 1) id
    else
      scanLinear g (g.strings.size + 1) id

/-! ### Shapes -/

/-- Shades the unowned twin of a base shape. What the twin refers to has been
seen already, because twins agree on everything. -/
def shadeTwin (id : BaseShapeId) (base : BaseShapeCell) (twinId : BaseShapeId) :
    MarkM ω Unit := do
  let twin ← need (g.baseShape? twinId)
  if twin.compartment = base.compartment ∧ twin.getter = base.getter ∧
      twin.setter = base.setter ∧ twin.parent = base.parent then
    let color ← color
    modify fun s =>
      if s.marks.isMarked twinId.thing then s
      else { s with marks := s.marks.set twinId.thing (.marked color) }
  else
    throw (.unequalTwins id twinId)

def pushOptional {kind : Kind} (push : Ref kind → MarkM ω Unit) :
    Option (Ref kind) → MarkM ω Unit
  | some id => push id
  | none => pure ()

def scanBaseShape (id : BaseShapeId) : MarkM ω Unit := do
  noteScan id.thing
  let base ← need (g.baseShape? id)
  pushOptional (pushObject g) base.getter
  pushOptional (pushObject g) base.setter
  pushOptional (pushObject g) base.parent
  pushOptional (shadeTwin g id base) base.twin

def pushBaseShape (id : BaseShapeId) : MarkM ω Unit := do
  if ← claim g id.thing (← color) then
    scanBaseShape g id

def pushProperty : PropertyId → MarkM ω Unit
  | .string id => pushString g id
  | .object id => pushObject g id
  | _ => pure ()

/-- Scans a shaded shape and its predecessors up to the first one that is
shaded already. -/
def scanShape : (steps : Nat) → ShapeId → MarkM ω Unit
  | 0, _ => throw .endless
  | steps + 1, id => do
    noteScan id.thing
    let shape ← need (g.shape? id)
    pushBaseShape g shape.base
    pushProperty g shape.property
    if let some previous := shape.previous then
      if ← claim g previous.thing (← color) then
        scanShape steps previous

def pushShape (id : ShapeId) : MarkM ω Unit := do
  if ← claim g id.thing (← color) then
    scanShape g (g.shapes.size + 1) id

/-! ### Visits -/

/-- Makes one visit: a reported thing is checked and pushed, and its label
ends with it. -/
def visit (push : Thing → MarkM ω Unit) : Visit → MarkM ω Unit
  | .setLabel label => setLabel label
  | .report thing => do
    if let some fault := g.objection? thing then
      throw fault
    push thing
    setLabel .blank
  | .keepFilename name => modify fun s => { s with filenames := s.filenames.mark name }
  | .broken fault => throw fault

def follow (push : Thing → MarkM ω Unit) (visits : List Visit) : MarkM ω Unit :=
  visits.forM (visit g push)

/-! ### Things of any kind -/

/-- Pushes a thing that is not a script. -/
def pushPlain (thing : Thing) : MarkM ω Unit :=
  match thing.kind with
  | .object => pushObject g ⟨thing.index⟩
  | .string => pushString g ⟨thing.index⟩
  | .script => pure ()
  | .shape => pushShape g ⟨thing.index⟩
  | .baseShape => pushBaseShape g ⟨thing.index⟩
  | .typeObject => pushTypeObject g ⟨thing.index⟩
  | .xml => pushXml g ⟨thing.index⟩

/-- Shades and scans a script. No script refers to another one. -/
def pushScript (id : ScriptId) : MarkM ω Unit := do
  if ← claim g id.thing (← color) then
    noteScan id.thing
    follow g (pushPlain g) (scriptVisits g true id)

def pushThing (thing : Thing) : MarkM ω Unit :=
  match thing.kind with
  | .script => pushScript g ⟨thing.index⟩
  | _ => pushPlain g thing

/-- Makes the visits of a call. -/
def make (call : MarkingCall) : MarkM ω Unit := do
  follow g (pushThing g) (call.visits g true (← get).context)

def scanTypeObject (id : TypeObjectId) : MarkM ω Unit := do
  noteScan id.thing
  let type ← need (g.typeObject? id)
  (shownProperties true type).forM (pushProperty g)
  pushOptional (pushObject g) type.proto
  if let some newScript := type.newScript then
    pushObject g newScript.function
    pushShape g newScript.shape
  pushOptional (pushObject g) type.function
  if !type.isLazy then
    pushOptional (pushObject g) type.singleton

def scanXml (id : XmlId) : MarkM ω Unit := do
  noteScan id.thing
  follow g (pushThing g) (xmlVisits g id)

/-! ### Objects -/

/-- Reads `count` values of a region from `index` on. Strings are scanned on the
spot. The first object shaded on the way ends the reading: the values after it
are pushed and the object is handed back. -/
def readValues (owner : ObjectId) (object : ObjectCell) (region : Region) :
    (count index : Nat) → MarkM ω (Option ObjectId)
  | 0, _ => return none
  | count + 1, index => do
    match object.regionValue region index with
    | .string id =>
      pushString g id
      readValues owner object region count (index + 1)
    | .object id =>
      if ← claim g id.thing (← color) then
        pushRange { owner, region, start := index + 1, stop := index + 1 + count }
        return some id
      else
        readValues owner object region count (index + 1)
    | _ => readValues owner object region count (index + 1)

/-- Reads a range of values. -/
def scanRange (range : ValueRange) : MarkM ω (Option ObjectId) := do
  let object ← need (g.object? range.owner)
  if object.regionSize range.region < range.stop then
    throw (.rangeOutsideRegion range)
  readValues g range.owner object range.region (range.stop - range.start) range.start

/-- Marks the type and the shape of an object and what its class reports. The
values to read next are handed back: the elements of an array, or the fixed
slots of an object whose other slots are pushed. -/
def openObject (id : ObjectId) : MarkM ω (Option ValueRange) := do
  noteScan id.thing
  let object ← need (g.object? id)
  pushTypeObject g object.type
  pushShape g object.shape
  let objectClass ← need (g.classOf? object)
  if objectClass = .array then
    return some { owner := id, region := .elements, start := 0,
                  stop := object.regionSize .elements }
  follow g (pushThing g) (hookVisits object objectClass.hook)
  if !objectClass.native then
    return none
  if object.overflow.isSome then
    pushRange { owner := id, region := .dynamic, start := 0,
                stop := object.regionSize .dynamic }
  return some { owner := id, region := .fixed, start := 0, stop := object.regionSize .fixed }

/-- Scans an object up to the first object that it shades among its values. -/
def scanObject (id : ObjectId) : MarkM ω (Option ObjectId) := do
  match ← openObject g id with
  | some range => scanRange g range
  | none => return none

end MarkM

end MarkPhase
