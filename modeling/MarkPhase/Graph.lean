import MarkPhase.Cells
import MarkPhase.Faults

/-!
The graph of things: every cell of the heap, without the marks. Marking reads
the graph and never changes it. Look-ups answer `none` for a reference to
nothing.
-/

namespace MarkPhase

structure Graph where
  /-- The names of the compartments, the atoms compartment first. -/
  compartments : Array String := #["atoms"]
  objects : Array ObjectCell := #[]
  strings : Array StringCell := #[]
  scripts : Array ScriptCell := #[]
  shapes : Array ShapeCell := #[]
  baseShapes : Array BaseShapeCell := #[]
  typeObjects : Array TypeCell := #[]
  xmlNodes : Array XmlCell := #[]
  /-- The atom of every text that has one. -/
  atoms : List (String × StringId) := []

namespace Graph

def object? (g : Graph) (id : ObjectId) : Option ObjectCell :=
  g.objects[id.index]?

def string? (g : Graph) (id : StringId) : Option StringCell :=
  g.strings[id.index]?

def script? (g : Graph) (id : ScriptId) : Option ScriptCell :=
  g.scripts[id.index]?

def shape? (g : Graph) (id : ShapeId) : Option ShapeCell :=
  g.shapes[id.index]?

def baseShape? (g : Graph) (id : BaseShapeId) : Option BaseShapeCell :=
  g.baseShapes[id.index]?

def typeObject? (g : Graph) (id : TypeObjectId) : Option TypeCell :=
  g.typeObjects[id.index]?

def xml? (g : Graph) (id : XmlId) : Option XmlCell :=
  g.xmlNodes[id.index]?

/-- The number of things of a kind. -/
def population (g : Graph) : Kind → Nat
  | .object => g.objects.size
  | .string => g.strings.size
  | .script => g.scripts.size
  | .shape => g.shapes.size
  | .baseShape => g.baseShapes.size
  | .typeObject => g.typeObjects.size
  | .xml => g.xmlNodes.size

def contains (g : Graph) (thing : Thing) : Bool :=
  decide (thing.index < g.population thing.kind)

def compartmentOf? (g : Graph) (thing : Thing) : Option CompartmentId :=
  match thing.kind with
  | .object => (g.objects[thing.index]?).map (·.compartment)
  | .string => (g.strings[thing.index]?).map (·.compartment)
  | .script => (g.scripts[thing.index]?).map (·.compartment)
  | .shape => (g.shapes[thing.index]?).map (·.compartment)
  | .baseShape => (g.baseShapes[thing.index]?).map (·.compartment)
  | .typeObject => (g.typeObjects[thing.index]?).map (·.compartment)
  | .xml => (g.xmlNodes[thing.index]?).map (·.compartment)

/-- Every thing, by kind and then by index. -/
def things (g : Graph) : List Thing :=
  Kind.all.flatMap fun kind => (List.range (g.population kind)).map (Thing.mk kind)

def thingCount (g : Graph) : Nat :=
  g.objects.size + g.strings.size + g.scripts.size + g.shapes.size + g.baseShapes.size +
    g.typeObjects.size + g.xmlNodes.size

/-- The class of an object, which its shape's base shape declares. -/
def classOf? (g : Graph) (object : ObjectCell) : Option Class := do
  let shape ← g.shape? object.shape
  let base ← g.baseShape? shape.base
  return base.objectClass

/-- The value of a slot below the span of an object. -/
def readSlot (g : Graph) (id : ObjectId) (index : Nat) : Except Fault Value :=
  match g.object? id with
  | none => .error .outOfBounds
  | some object =>
    if index < object.span then .ok (object.slot index)
    else .error (.slotOutOfSpan index object.span)

def hasCompartment (g : Graph) (id : CompartmentId) : Bool :=
  decide (id.index < g.compartments.size)

/-- Why a marking call does not accept a thing, if it does not: the thing has to
be on the heap and in one of its compartments. -/
def objection? (g : Graph) (thing : Thing) : Option Fault :=
  match g.compartmentOf? thing with
  | none => some (.unknownThing thing)
  | some compartment =>
    if g.hasCompartment compartment then none else some (.foreignCompartment thing compartment)

private theorem isSome_getElem?_eq {α : Type} (cells : Array α) (index : Nat) :
    cells[index]?.isSome = decide (index < cells.size) := by
  by_cases h : index < cells.size <;> simp [h]

theorem isSome_compartmentOf? (g : Graph) (thing : Thing) :
    (g.compartmentOf? thing).isSome = g.contains thing := by
  obtain ⟨kind, index⟩ := thing
  cases kind <;> simp [compartmentOf?, contains, population, isSome_getElem?_eq] <;> rfl

end Graph

end MarkPhase
