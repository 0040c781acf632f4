import MarkPhase.Heap

/-!
Building a heap. Each call either adds one thing, changes one field or fails;
references passed to a call are stored as they are, and a call fails only where
it has to read a thing that is not there or would break a rule of strings or
base shapes. A history of calls is a list of `Construction`s.
-/

namespace MarkPhase

/-- A call that builds on a heap, or fails at some point of it. -/
abbrev Builder := EStateM Fault Heap

namespace Builder

@[inline] def updateGraph (change : Graph → Graph) : Builder Unit :=
  modify fun heap => { heap with graph := change heap.graph }

@[inline] def updateLedger (change : Ledger → Ledger) : Builder Unit :=
  modify fun heap => { heap with ledger := change heap.ledger }

/-- Adds a thing of a kind. Its id is the number of those before it, in a word. -/
@[inline] def add {kind : Kind} (store : Graph → Graph) : Builder (Ref kind) :=
  modifyGet fun heap =>
    (⟨toWord (heap.graph.population kind)⟩, { heap with graph := store heap.graph })

/-- Changes a thing that has to exist. -/
@[inline] def edit {kind : Kind} (ref : Ref kind) (change : Graph → Graph) :
    Builder Unit := do
  if ref.index < (← get).graph.population kind then
    updateGraph change
  else
    throw .outOfBounds

def lookUp {α : Type} (result : Graph → Except Fault α) : Builder α := do
  match result (← get).graph with
  | .ok value => pure value
  | .error fault => throw fault

def newCompartment (name : String) : Builder CompartmentId := do
  let id ← modifyGet fun heap =>
    ((⟨toWord heap.graph.compartments.size⟩ : CompartmentId),
      { heap with
        graph := { heap.graph with compartments := heap.graph.compartments.push name } })
  updateLedger fun ledger =>
    { ledger with journal := ledger.journal.push (.newCompartment id name) }
  return id

def addString (cell : StringCell) : Builder StringId :=
  add fun g => { g with strings := g.strings.push cell }

def newString (compartment : CompartmentId) (chars : String) : Builder StringId :=
  addString ⟨compartment, .linear chars⟩

/-- The one atom of a text, made on first use. -/
def atomize (chars : String) : Builder StringId := do
  match (← get).graph.atoms.lookup chars with
  | some id => return id
  | none =>
    let id ← addString ⟨.atoms, .linear chars⟩
    updateGraph fun g => { g with atoms := (chars, id) :: g.atoms }
    return id

/-- A string that shares a range of another string's characters. -/
def newDependent (compartment : CompartmentId) (base : StringId) (start length : Nat) :
    Builder StringId := do
  let chars ← lookUp fun g => g.linearChars base
  if Nat.pow 2 64 ≤ start + length then
    throw .overflow
  match slice? chars start length with
  | some _ => addString ⟨compartment, .dependent base start length⟩
  | none => throw (.dependentRange start (start + length) base)

def concat (compartment : CompartmentId) (left right : StringId) : Builder StringId := do
  let first ← need ((← get).graph.string? left)
  let second ← need ((← get).graph.string? right)
  let length := first.length + second.length
  if Nat.pow 2 64 ≤ length then
    throw .overflow
  addString ⟨compartment, .rope left right length⟩

def addBaseShape (cell : BaseShapeCell) : Builder BaseShapeId :=
  add fun g => { g with baseShapes := g.baseShapes.push cell }

def newBaseShape (compartment : CompartmentId) (declared : Option Class)
    (getter setter parent : Option ObjectId) : Builder BaseShapeId :=
  addBaseShape { compartment, declared, getter, setter, parent, twin := none }

/-- An owned copy of a base shape that is not owned itself. -/
def newOwnedBaseShape (twin : BaseShapeId) : Builder BaseShapeId := do
  let base ← need ((← get).graph.baseShape? twin)
  if base.isOwned then
    throw (.ownedTwin twin)
  addBaseShape { base with twin := some twin }

def newShape (compartment : CompartmentId) (base : BaseShapeId) (property : PropertyId)
    (previous : Option ShapeId) : Builder ShapeId :=
  add fun g => { g with shapes := g.shapes.push { compartment, base, property, previous } }

def newTypeObject (compartment : CompartmentId) (properties : List (Option PropertyId))
    (proto function : Option ObjectId) (newScript : Option NewScript) :
    Builder TypeObjectId :=
  add fun g =>
    { g with
      typeObjects := g.typeObjects.push
        { compartment, properties := properties.toArray, proto, function, newScript } }

def editType (type : TypeObjectId) (change : TypeCell → TypeCell) : Builder Unit :=
  edit type fun g => { g with typeObjects := g.typeObjects.modify type.index change }

/-- Makes a type the singleton type of one object. -/
def setSingleton (type : TypeObjectId) (object : ObjectId) (isLazy : Bool) : Builder Unit :=
  editType type fun cell => { cell with singleton := some object, isLazy }

def setNewScript (type : TypeObjectId) (newScript : NewScript) : Builder Unit :=
  editType type fun cell => { cell with newScript := some newScript }

def addTypeProperty (type : TypeObjectId) (id : PropertyId) : Builder Unit :=
  editType type fun cell => { cell with properties := cell.properties.push (some id) }

def newObject (compartment : CompartmentId) (type : TypeObjectId) (shape : ShapeId)
    (fixed : Nat) : Builder ObjectId := do
  allocate fixed Value.bytes
  add fun g => { g with objects := g.objects.push (.make compartment type shape fixed) }

def editObject (object : ObjectId) (change : ObjectCell → ObjectCell) : Builder Unit :=
  edit object fun g => { g with objects := g.objects.modify object.index change }

def setSlot (object : ObjectId) (index : Nat) (value : Value) : Builder Unit := do
  let cell ← need ((← get).graph.object? object)
  if Nat.pow 2 64 ≤ cell.overflowLength index then
    throw .overflow
  allocate (cell.overflowLength index) Value.bytes
  match cell.write? index value with
  | some written => editObject object fun _ => written
  | none => throw .overflow

def setShape (object : ObjectId) (shape : ShapeId) : Builder Unit :=
  editObject object fun cell => { cell with shape }

def pushElement (object : ObjectId) (value : Value) : Builder Unit :=
  editObject object fun cell => { cell with elements := cell.elements.push value }

def setPrivate (object : ObjectId) (thing : Option Thing) : Builder Unit :=
  editObject object fun cell => { cell with privateThing := thing }

/-- Adds a script and gives its filename an entry in the table. -/
def newScript (script : ScriptCell) : Builder ScriptId := do
  if let some name := script.filename then
    updateLedger fun ledger => { ledger with filenames := ledger.filenames.intern name }
  add fun g => { g with scripts := g.scripts.push script }

def newXml (compartment : CompartmentId) (kind : XmlKind) : Builder XmlId :=
  add fun g => { g with xmlNodes := g.xmlNodes.push { compartment, kind } }

def editXml (node : XmlId) (change : XmlCell → XmlCell) : Builder Unit :=
  edit node fun g => { g with xmlNodes := g.xmlNodes.modify node.index change }

def setXmlName (node : XmlId) (name : Option StringId) : Builder Unit :=
  editXml node fun cell => { cell with name }

def setXmlValue (node : XmlId) (value : Option StringId) : Builder Unit :=
  editXml node fun cell => { cell with value }

def setXmlObject (node : XmlId) (object : Option ObjectId) : Builder Unit :=
  editXml node fun cell => { cell with object }

def appendKid (node kid : XmlId) : Builder Unit := do
  editXml kid fun cell => { cell with parent := some node }
  editXml node fun cell => { cell with kids := cell.kids.push kid }

def appendAttr (node attr : XmlId) : Builder Unit := do
  editXml attr fun cell => { cell with parent := some node }
  editXml node fun cell => { cell with attrs := cell.attrs.push attr }

end Builder

/-- What a building call hands back. -/
inductive Product
  | nothing
  | compartment (id : CompartmentId)
  | thing (thing : Thing)
deriving DecidableEq

/-- A building call with its arguments. -/
inductive Construction
  | compartment (name : String)
  | string (compartment : CompartmentId) (chars : String)
  | atom (chars : String)
  | dependent (compartment : CompartmentId) (base : StringId) (start length : Nat)
  | concat (compartment : CompartmentId) (left right : StringId)
  | baseShape (compartment : CompartmentId) (declared : Option Class)
      (getter setter parent : Option ObjectId)
  | ownedBaseShape (twin : BaseShapeId)
  | shape (compartment : CompartmentId) (base : BaseShapeId) (property : PropertyId)
      (previous : Option ShapeId)
  | typeObject (compartment : CompartmentId) (properties : List (Option PropertyId))
      (proto function : Option ObjectId) (newScript : Option NewScript)
  | singleton (type : TypeObjectId) (object : ObjectId) (isLazy : Bool)
  | newScript (type : TypeObjectId) (newScript : NewScript)
  | typeProperty (type : TypeObjectId) (id : PropertyId)
  | object (compartment : CompartmentId) (type : TypeObjectId) (shape : ShapeId) (fixed : Nat)
  | slot (object : ObjectId) (index : Nat) (value : Value)
  | objectShape (object : ObjectId) (shape : ShapeId)
  | element (object : ObjectId) (value : Value)
  | privateThing (object : ObjectId) (thing : Option Thing)
  | script (script : ScriptCell)
  | xml (compartment : CompartmentId) (kind : XmlKind)
  | xmlName (node : XmlId) (name : Option StringId)
  | xmlValue (node : XmlId) (value : Option StringId)
  | xmlObject (node : XmlId) (object : Option ObjectId)
  | xmlKid (node kid : XmlId)
  | xmlAttr (node attr : XmlId)

namespace Construction

def made {kind : Kind} (call : Builder (Ref kind)) : Builder Product := do
  return .thing (← call).thing

def done (call : Builder Unit) : Builder Product := do
  call
  return .nothing

def perform : Construction → Builder Product
  | .compartment name => do return .compartment (← Builder.newCompartment name)
  | .string c chars => made (Builder.newString c chars)
  | .atom chars => made (Builder.atomize chars)
  | .dependent c base start length => made (Builder.newDependent c base start length)
  | .concat c left right => made (Builder.concat c left right)
  | .baseShape c declared getter setter parent =>
    made (Builder.newBaseShape c declared getter setter parent)
  | .ownedBaseShape twin => made (Builder.newOwnedBaseShape twin)
  | .shape c base property previous => made (Builder.newShape c base property previous)
  | .typeObject c properties proto function ctor =>
    made (Builder.newTypeObject c properties proto function ctor)
  | .singleton type owner isLazy => done (Builder.setSingleton type owner isLazy)
  | .newScript type ctor => done (Builder.setNewScript type ctor)
  | .typeProperty type id => done (Builder.addTypeProperty type id)
  | .object c type lineage fixed => made (Builder.newObject c type lineage fixed)
  | .slot owner index value => done (Builder.setSlot owner index value)
  | .objectShape owner lineage => done (Builder.setShape owner lineage)
  | .element owner value => done (Builder.pushElement owner value)
  | .privateThing owner thing => done (Builder.setPrivate owner thing)
  | .script cell => made (Builder.newScript cell)
  | .xml c kind => made (Builder.newXml c kind)
  | .xmlName node name => done (Builder.setXmlName node name)
  | .xmlValue node value => done (Builder.setXmlValue node value)
  | .xmlObject node reflected => done (Builder.setXmlObject node reflected)
  | .xmlKid node kid => done (Builder.appendKid node kid)
  | .xmlAttr node attr => done (Builder.appendAttr node attr)

end Construction

namespace Heap

/-- The heap after one call, whether or not the call failed. -/
def after (heap : Heap) (call : Construction) : Heap :=
  match call.perform.run heap with
  | .ok _ next => next
  | .error _ next => next

/-- The heap that a history of calls builds from nothing. -/
def built (history : List Construction) : Heap :=
  history.foldl Heap.after Heap.empty

end Heap

end MarkPhase
