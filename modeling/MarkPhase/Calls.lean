import MarkPhase.Visits

/-!
The calls that report things to a tracer from outside: single edges, tables,
roots, property ids, slot values, wrapped values and whole enumerations. A call
stands for the visits it makes.
-/

namespace MarkPhase

inductive MarkingCall
  /-- One thing under a name. -/
  | thing (name : String) (thing : Thing)
  /-- The present entries of a table. -/
  | table (name : String) (things : List (Option Thing))
  /-- One thing under whatever label is set. -/
  | unnamed (thing : Thing)
  /-- A root that may be missing. -/
  | root (name : String) (thing : Option Thing)
  | property (name : String) (id : PropertyId)
  | properties (name : String) (ids : List PropertyId)
  | value (name : String) (value : Value)
  | values (name : String) (values : List Value)
  /-- A value behind a wrapper, which a confined tracer follows only into its
  own compartment. -/
  | wrapped (name : String) (value : Value)
  | children (thing : Thing)
  | lineage (shape : ShapeId)
deriving DecidableEq

namespace MarkingCall

/-- Visits of a wrapped thing. The label stays as it is unless the thing is
followed. -/
def wrappedVisits (g : Graph) (context : Context) (name : String) (thing : Thing) :
    List Visit :=
  match context.compartment with
  | none => edgeVisits (.named name) thing
  | some current =>
    match g.compartmentOf? thing with
    | none => [.broken .outOfBounds]
    | some compartment =>
      if compartment = current then edgeVisits (.named name) thing else []

def visits (g : Graph) (isMarker : Bool) (context : Context) : MarkingCall → List Visit
  | .thing name one => edgeVisits (.named name) one
  | .table name things => tableVisits name things
  | .unnamed one => [.report one]
  | .root name one => edgeVisits (.named name) one
  | .property name id => edgeVisits (.named name) id.thing?
  | .properties name ids => fullTableVisits name (ids.map PropertyId.thing?)
  | .value name held => edgeVisits (.named name) held.thing?
  | .values name held => valueTableVisits name held
  | .wrapped name held =>
    match held.thing? with
    | some one => wrappedVisits g context name one
    | none => []
  | .children one => childVisits g isMarker one
  | .lineage shape => lineageVisits g shape

end MarkingCall

end MarkPhase
