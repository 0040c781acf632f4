import MarkPhase.Classes
import MarkPhase.Values

/-!
What the heap stores for strings, shapes, base shapes, types, scripts and XML
nodes. Cells refer to one another by reference only, and no cell holds a mark.
-/

namespace MarkPhase

/-- How a string holds its characters. Lengths and offsets count bytes of UTF-8. -/
inductive Layout
  | linear (chars : String)
  /-- A range of the characters of another string. -/
  | dependent (base : StringId) (start length : Nat)
  /-- Two strings joined but not yet copied together. -/
  | rope (left right : StringId) (length : Nat)
deriving DecidableEq, Inhabited

structure StringCell where
  compartment : CompartmentId
  layout : Layout
deriving Inhabited

namespace StringCell

def length (string : StringCell) : Nat :=
  match string.layout with
  | .linear chars => chars.utf8ByteSize
  | .dependent _ _ length => length
  | .rope _ _ length => length

def isRope (string : StringCell) : Bool :=
  match string.layout with
  | .rope .. => true
  | _ => false

def base? (string : StringCell) : Option StringId :=
  match string.layout with
  | .dependent base _ _ => some base
  | _ => none

def parts? (string : StringCell) : Option (StringId × StringId) :=
  match string.layout with
  | .rope left right _ => some (left, right)
  | _ => none

end StringCell

/-- One step of a property lineage. -/
structure ShapeCell where
  compartment : CompartmentId
  base : BaseShapeId
  property : PropertyId
  previous : Option ShapeId
deriving Inhabited

/-- What the shapes of one family share. An owned base shape repeats the class,
getter, setter and parent of the base shape it refers to as its twin. -/
structure BaseShapeCell where
  compartment : CompartmentId
  declared : Option Class
  getter : Option ObjectId
  setter : Option ObjectId
  parent : Option ObjectId
  twin : Option BaseShapeId
deriving Inhabited

namespace BaseShapeCell

/-- A base shape that declares no class describes plain objects. -/
def objectClass (base : BaseShapeCell) : Class :=
  base.declared.getD .plain

def isOwned (base : BaseShapeCell) : Bool :=
  base.twin.isSome

end BaseShapeCell

/-- The function that constructs instances, and the shape they start with. -/
structure NewScript where
  function : ObjectId
  shape : ShapeId
deriving DecidableEq, Inhabited

structure TypeCell where
  compartment : CompartmentId
  properties : Array (Option PropertyId)
  proto : Option ObjectId
  singleton : Option ObjectId := none
  /-- A lazy singleton does not keep its object alive. -/
  isLazy : Bool := false
  function : Option ObjectId
  newScript : Option NewScript
deriving Inhabited

structure Breakpoint where
  position : Nat
  closure : Value
deriving DecidableEq, Inhabited

structure DebugState where
  stepMode : Nat
  breakpoints : List Breakpoint
deriving DecidableEq, Inhabited

structure ScriptCell where
  compartment : CompartmentId
  atoms : List (Option StringId) := []
  objects : Option (List (Option ObjectId)) := none
  regexps : Option (List (Option ObjectId)) := none
  consts : Option (List Value) := none
  function : Option ObjectId := none
  global : Option ObjectId := none
  isCachedEval : Bool := false
  filename : Option String := none
  bindings : Option ShapeId := none
  debug : Option DebugState := none
deriving Inhabited

namespace ScriptCell

/-- Whether the debugger has set step mode or a breakpoint. -/
def isDebugged (script : ScriptCell) : Bool :=
  match script.debug with
  | some debug => decide (0 < debug.stepMode) || !debug.breakpoints.isEmpty
  | none => false

def closures (script : ScriptCell) : List Value :=
  match script.debug with
  | some debug => debug.breakpoints.map (·.closure)
  | none => []

end ScriptCell

inductive XmlKind
  | list
  | element
  | attribute
  | text
  | comment
  | processingInstruction
deriving DecidableEq, Inhabited

namespace XmlKind

def title : XmlKind → String
  | .list => "List"
  | .element => "Element"
  | .attribute => "Attribute"
  | .text => "Text"
  | .comment => "Comment"
  | .processingInstruction => "ProcessingInstruction"

end XmlKind

structure XmlCell where
  compartment : CompartmentId
  kind : XmlKind
  object : Option ObjectId := none
  name : Option StringId := none
  value : Option StringId := none
  parent : Option XmlId := none
  kids : Array XmlId := #[]
  attrs : Array XmlId := #[]
deriving Inhabited

end MarkPhase
