import MarkPhase.Decimals
import MarkPhase.Heap
import MarkPhase.Quoting

/-!
One-line descriptions of the things of a heap, for diagnosis. A description names
the structure and lists its fields as `Name { field: value, ... }`; absent values
read `None` and present ones `Some(value)`.
-/

namespace MarkPhase

/-- A structure with its fields. -/
def describeFields (name : String) (fields : List (String × String)) : String :=
  name ++ " \x7b " ++
    String.intercalate ", " (fields.map fun (field, value) => field ++ ": " ++ value) ++ " \x7d"

def describeOption {α : Type} (describe : α → String) : Option α → String
  | some value => "Some(" ++ describe value ++ ")"
  | none => "None"

def describeList {α : Type} (describe : α → String) (values : List α) : String :=
  "[" ++ String.intercalate ", " (values.map describe) ++ "]"

def describeBool (value : Bool) : String :=
  if value then "true" else "false"

def describeOptionRef {kind : Kind} : Option (Ref kind) → String :=
  describeOption Ref.text

namespace Value

def description : Value → String
  | .undefined => "Undefined"
  | .null => "Null"
  | .boolean value => "Boolean(" ++ describeBool value ++ ")"
  | .int32 value => "Int32(" ++ toString value ++ ")"
  | .double value => "Double(" ++ value.reading.debugText ++ ")"
  | .string id => "String(" ++ id.text ++ ")"
  | .object id => "Object(" ++ id.text ++ ")"

end Value

namespace PropertyId

def description : PropertyId → String
  | .void => "Void"
  | .int value => "Int(" ++ toString value ++ ")"
  | .string id => "String(" ++ id.text ++ ")"
  | .object id => "Object(" ++ id.text ++ ")"

end PropertyId

namespace Class

def description (objectClass : Class) : String :=
  describeFields "Class"
    [("name", quoted objectClass.name), ("native", describeBool objectClass.native),
      ("trace", describeBool objectClass.hook.isSome)]

end Class

namespace NewScript

def description (newScript : NewScript) : String :=
  describeFields "NewScript"
    [("fun", newScript.function.text), ("shape", newScript.shape.text)]

end NewScript

namespace DebugState

def description (debug : DebugState) : String :=
  describeFields "DebugScript"
    [("step_mode", toString debug.stepMode),
      ("breakpoints", describeList (fun site =>
        describeFields "BreakpointSite"
          [("pc", toString site.position), ("trap_closure", site.closure.description)])
        debug.breakpoints)]

end DebugState

namespace Layout

def description : Layout → String
  | .linear _ => "linear"
  | .dependent .. => "dependent"
  | .rope .. => "rope"

end Layout

/-- The compartment and the mark state that every thing has. -/
def describeHeader (compartment : CompartmentId) (shade : Shade) : String × String :=
  ("header", describeFields "CellHeader"
    [("compartment", compartment.text), ("mark_state", shade.title)])

namespace ObjectCell

def description (object : ObjectCell) (shade : Shade) : String :=
  describeFields "JSObject"
    [describeHeader object.compartment shade, ("type", object.type.text),
      ("shape", object.shape.text), ("slot_span", toString object.span),
      ("elements", toString object.elements.size)]

end ObjectCell

namespace StringCell

def description (string : StringCell) (shade : Shade) : String :=
  describeFields "JSString"
    [describeHeader string.compartment shade, ("layout", quoted string.layout.description),
      ("length", toString string.length)]

end StringCell

namespace ScriptCell

def description (script : ScriptCell) (shade : Shade) : String :=
  describeFields "Script"
    [describeHeader script.compartment shade,
      ("atoms", describeList describeOptionRef script.atoms),
      ("objects", describeOption (describeList describeOptionRef) script.objects),
      ("regexps", describeOption (describeList describeOptionRef) script.regexps),
      ("consts", describeOption (describeList Value.description) script.consts),
      ("function", describeOptionRef script.function),
      ("global", describeOptionRef script.global),
      ("is_cached_eval", describeBool script.isCachedEval),
      ("filename", describeOption quoted script.filename),
      ("bindings", describeOptionRef script.bindings),
      ("debug", describeOption DebugState.description script.debug)]

end ScriptCell

namespace ShapeCell

def description (shape : ShapeCell) (shade : Shade) : String :=
  describeFields "Shape"
    [describeHeader shape.compartment shade, ("base", shape.base.text),
      ("propid", shape.property.description), ("previous", describeOptionRef shape.previous)]

end ShapeCell

namespace BaseShapeCell

def description (base : BaseShapeCell) (shade : Shade) : String :=
  describeFields "BaseShape"
    [describeHeader base.compartment shade, ("class", quoted base.objectClass.name),
      ("getter", describeOptionRef base.getter), ("setter", describeOptionRef base.setter),
      ("parent", describeOptionRef base.parent), ("unowned", describeOptionRef base.twin)]

end BaseShapeCell

namespace TypeCell

def description (type : TypeCell) (shade : Shade) : String :=
  describeFields "TypeObject"
    [describeHeader type.compartment shade,
      ("properties", describeList (describeOption fun id =>
        describeFields "TypeProperty" [("id", PropertyId.description id)])
        type.properties.toList),
      ("proto", describeOptionRef type.proto),
      ("singleton", describeOptionRef type.singleton),
      ("lazy", describeBool type.isLazy),
      ("interpreted_function", describeOptionRef type.function),
      ("new_script", describeOption NewScript.description type.newScript)]

end TypeCell

namespace XmlCell

def description (node : XmlCell) (shade : Shade) : String :=
  describeFields "XmlNode"
    [describeHeader node.compartment shade, ("kind", node.kind.title),
      ("object", describeOptionRef node.object), ("name", describeOptionRef node.name),
      ("value", describeOptionRef node.value), ("parent", describeOptionRef node.parent),
      ("kids", describeList Ref.text node.kids.toList),
      ("attrs", describeList Ref.text node.attrs.toList)]

end XmlCell

namespace Heap

/-- The description of a thing, if the heap has it. -/
def description? (heap : Heap) (thing : Thing) : Option String :=
  let shade := heap.ledger.marks.get thing
  match thing.kind with
  | .object => (heap.graph.object? ⟨thing.index⟩).map (·.description shade)
  | .string => (heap.graph.string? ⟨thing.index⟩).map (·.description shade)
  | .script => (heap.graph.script? ⟨thing.index⟩).map (·.description shade)
  | .shape => (heap.graph.shape? ⟨thing.index⟩).map (·.description shade)
  | .baseShape => (heap.graph.baseShape? ⟨thing.index⟩).map (·.description shade)
  | .typeObject => (heap.graph.typeObject? ⟨thing.index⟩).map (·.description shade)
  | .xml => (heap.graph.xml? ⟨thing.index⟩).map (·.description shade)

end Heap

end MarkPhase
