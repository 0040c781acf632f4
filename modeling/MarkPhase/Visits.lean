import MarkPhase.Contexts
import MarkPhase.Graph

/-!
What a tracing call does to a tracer, as a list of visits: labels set,
things reported, filenames kept. The lists depend on the graph alone, so every
tracer that is shown the same thing is shown the same edges. A marker differs
from the others in two places: it keeps filenames, and of the properties of a
type it is shown those with string names only.
-/

namespace MarkPhase

inductive Visit
  | setLabel (label : Label)
  | report (thing : Thing)
  | keepFilename (name : String)
  /-- The enumeration could not go on. -/
  | broken (fault : Fault)
deriving DecidableEq

namespace Visit

/-- The thing that a visit reports, if it reports one. -/
def thing? : Visit → Option Thing
  | .report thing => some thing
  | _ => none

end Visit

/-- Visits of one edge, which may turn out to lead nowhere. -/
def edgeVisits (label : Label) (thing : Option Thing) : List Visit :=
  .setLabel label :: (thing.map .report).toList

/-- Visits of the entries of a table that hold something. -/
def tableVisits (name : String) (things : List (Option Thing)) : List Visit :=
  things.zipIdx.flatMap fun (thing, index) =>
    match thing with
    | some thing => edgeVisits (.indexed name index) thing
    | none => []

/-- Visits of a table of which every position is labelled, whatever it holds. -/
def fullTableVisits (name : String) (things : List (Option Thing)) : List Visit :=
  things.zipIdx.flatMap fun (thing, index) => edgeVisits (.indexed name index) thing

/-- Visits of one field that may be absent. -/
def fieldVisits {kind : Kind} (name : String) : Option (Ref kind) → List Visit
  | some ref => edgeVisits (.named name) ref.thing
  | none => []

def valueTableVisits (name : String) (values : List Value) : List Visit :=
  fullTableVisits name (values.map Value.thing?)

/-- The edges a class reports about an object of its own. -/
def hookVisits (object : ObjectCell) : Option Hook → List Visit
  | some .elements => valueTableVisits "element" (object.region .elements)
  | some .privateThing =>
    match object.privateThing with
    | some thing => edgeVisits (.named "private") thing
    | none => []
  | none => []

def slotVisits (id : ObjectId) (object : ObjectCell) : List Visit :=
  (List.range object.span).flatMap fun index =>
    edgeVisits (.slot id index) (object.slot index).thing?

def objectVisits (g : Graph) (id : ObjectId) : List Visit :=
  match g.object? id with
  | none => [.broken .outOfBounds]
  | some object =>
    edgeVisits (.named "type") object.type.thing ++
    edgeVisits (.named "shape") object.shape.thing ++
    match g.classOf? object with
    | none => [.broken .outOfBounds]
    | some objectClass =>
      hookVisits object objectClass.hook ++
        if objectClass.native then slotVisits id object else []

def stringVisits (g : Graph) (id : StringId) : List Visit :=
  match g.string? id with
  | none => [.broken .outOfBounds]
  | some string =>
    match string.layout with
    | .linear _ => []
    | .dependent base _ _ => edgeVisits (.named "base") base.thing
    | .rope left right _ =>
      edgeVisits (.named "left child") left.thing ++
        edgeVisits (.named "right child") right.thing

/-- A script that was cached for eval does not keep its global. Trap closures
count only while the debugger has set something. -/
def scriptVisits (g : Graph) (isMarker : Bool) (id : ScriptId) : List Visit :=
  match g.script? id with
  | none => [.broken .outOfBounds]
  | some script =>
    script.atoms.flatMap (fieldVisits "atom") ++
    tableVisits "objects" ((script.objects.getD []).map (·.map Ref.thing)) ++
    tableVisits "regexps" ((script.regexps.getD []).map (·.map Ref.thing)) ++
    valueTableVisits "consts" (script.consts.getD []) ++
    fieldVisits "function" script.function ++
    (if script.isCachedEval then [] else fieldVisits "global" script.global) ++
    (if isMarker then (script.filename.map .keepFilename).toList else []) ++
    fieldVisits "bindings" script.bindings ++
    if script.isDebugged then
      script.closures.flatMap fun value => edgeVisits (.named "trap closure") value.thing?
    else
      []

def shapeVisits (g : Graph) (id : ShapeId) : List Visit :=
  match g.shape? id with
  | none => [.broken .outOfBounds]
  | some shape =>
    edgeVisits (.named "base") shape.base.thing ++
    edgeVisits (.named "propid") shape.property.thing? ++
    fieldVisits "parent" shape.previous

def accessorVisits (base : BaseShapeCell) : List Visit :=
  fieldVisits "getter" base.getter ++ fieldVisits "setter" base.setter

def baseShapeVisits (g : Graph) (id : BaseShapeId) : List Visit :=
  match g.baseShape? id with
  | none => [.broken .outOfBounds]
  | some base =>
    accessorVisits base ++ fieldVisits "base" base.twin ++ fieldVisits "parent" base.parent

/-- The property ids of a type that a tracer is shown. -/
def shownProperties (isMarker : Bool) (type : TypeCell) : List PropertyId :=
  if type.singleton.isSome then
    []
  else
    type.properties.toList.filterMap fun
      | some (.string id) => some (.string id)
      | some id => if isMarker then none else some id
      | none => none

def typeObjectVisits (g : Graph) (isMarker : Bool) (id : TypeObjectId) : List Visit :=
  match g.typeObject? id with
  | none => [.broken .outOfBounds]
  | some type =>
    (shownProperties isMarker type).flatMap (fun id =>
      edgeVisits (.named "type_prop") id.thing?) ++
    fieldVisits "type_proto" type.proto ++
    (if type.isLazy then [] else fieldVisits "type_singleton" type.singleton) ++
    (match type.newScript with
      | some newScript =>
        edgeVisits (.named "type_new_function") newScript.function.thing ++
          edgeVisits (.named "type_new_shape") newScript.shape.thing
      | none => []) ++
    fieldVisits "type_function" type.function

def xmlVisits (g : Graph) (id : XmlId) : List Visit :=
  match g.xml? id with
  | none => [.broken .outOfBounds]
  | some node =>
    fieldVisits "object" node.object ++
    fieldVisits "name" node.name ++
    fieldVisits "value" node.value ++
    fieldVisits "xml_parent" node.parent ++
    tableVisits "xml_kids" (node.kids.toList.map fun kid => some kid.thing) ++
    tableVisits "xml_attrs" (node.attrs.toList.map fun attr => some attr.thing)

/-- Every child edge of a thing. -/
def childVisits (g : Graph) (isMarker : Bool) (thing : Thing) : List Visit :=
  match thing.kind with
  | .object => objectVisits g ⟨thing.index⟩
  | .string => stringVisits g ⟨thing.index⟩
  | .script => scriptVisits g isMarker ⟨thing.index⟩
  | .shape => shapeVisits g ⟨thing.index⟩
  | .baseShape => baseShapeVisits g ⟨thing.index⟩
  | .typeObject => typeObjectVisits g isMarker ⟨thing.index⟩
  | .xml => xmlVisits g ⟨thing.index⟩

/-- The walk along `steps` shapes of a lineage: accessors, the parent unless it
was the last parent reported, and the property id. A lineage with more steps
than there are shapes comes back to one of its own. -/
def lineageFrom (g : Graph) :
    (steps : Nat) → (lastParent : Option ObjectId) → Option ShapeId → List Visit
  | _, _, none => []
  | 0, _, some _ => [.broken .endless]
  | steps + 1, lastParent, some id =>
    match g.shape? id with
    | none => [.broken .outOfBounds]
    | some shape =>
      match g.baseShape? shape.base with
      | none => [.broken .outOfBounds]
      | some base =>
        accessorVisits base ++
        (if base.parent = lastParent then [] else fieldVisits "parent" base.parent) ++
        edgeVisits (.named "propid") shape.property.thing? ++
        lineageFrom g steps (base.parent.or lastParent) shape.previous

/-- What a lineage refers to besides shapes and base shapes. -/
def lineageVisits (g : Graph) (shape : ShapeId) : List Visit :=
  lineageFrom g (g.shapes.size + 1) none (some shape)

end MarkPhase
