import Mathlib.Algebra.Order.BigOperators.Group.Multiset
import Mathlib.Data.Multiset.Count
import Mathlib.Logic.Relation
import MarkPhase.Marker
import MarkPhase.Proofs.Edges

/-!
The marker seen from afar. An outline of a state says what is marked, what is
still owed and what has been said and done about delays; it leaves open in which
order the owed work is done and where it is kept. The moves of an outline are the
elementary moves of a marker. Each of them is free to happen whenever its
conditions hold, so that what is kept by every move is kept by the marker,
whatever its schedule, its observer and the bound of its stack.
-/

namespace MarkPhase

namespace Graph

/-- A tracer confined by `filter` may look at the thing. -/
def Allowed (g : Graph) (filter : Option CompartmentId) (thing : Thing) : Prop :=
  ∃ compartment, g.compartmentOf? thing = some compartment ∧
    Context.allows { compartment := filter } compartment = true

/-- A value of the range refers to `child`. -/
def Holds (g : Graph) (range : ValueRange) (child : Thing) : Prop :=
  ∃ object, g.object? range.owner = some object ∧
    ∃ index, range.start ≤ index ∧ index < range.stop ∧
      (object.regionValue range.region index).thing? = some child

/-- The range lies within its region, and what the region holds below its end is shown to
tracers. -/
structure Admits (g : Graph) (range : ValueRange) : Prop where
  stop_le : ∃ object, g.object? range.owner = some object ∧
    range.stop ≤ object.regionSize range.region
  below : ∀ child, g.Holds { range with start := 0 } child → g.Child range.owner.thing child

theorem Allowed.contains {g : Graph} {filter : Option CompartmentId} {thing : Thing}
    (h : g.Allowed filter thing) : g.contains thing = true := by
  obtain ⟨compartment, hc, _⟩ := h
  exact (g.contains_iff_exists thing).mpr ⟨compartment, hc⟩

end Graph

namespace ValueRange

/-- The range without its first value. -/
def rest (range : ValueRange) : ValueRange :=
  { range with start := range.start + 1 }

def key (range : ValueRange) : ObjectId × Region :=
  (range.owner, range.region)

end ValueRange

/-- What a marked thing may still owe. -/
inductive Duty
  /-- The thing has not been scanned. -/
  | fresh (thing : Thing)
  /-- The thing is being scanned. -/
  | scanning (thing : Thing)
  /-- The thing has been delayed, and all its children are traced at last. -/
  | retracing (thing : Thing)
  /-- The values wait on the stack. -/
  | stored (range : ValueRange)
  /-- The values are being read. -/
  | reading (range : ValueRange)
  /-- The values are not read yet and are about to be put on the stack. -/
  | cut (range : ValueRange)
deriving DecidableEq

namespace Duty

def owner : Duty → Thing
  | .fresh thing => thing
  | .scanning thing => thing
  | .retracing thing => thing
  | .stored range => range.owner.thing
  | .reading range => range.owner.thing
  | .cut range => range.owner.thing

def range? : Duty → Option ValueRange
  | .stored range => some range
  | .reading range => some range
  | .cut range => some range
  | _ => none

/-- The work that the duty stands for. -/
def weight : Duty → Nat
  | .fresh _ => 2
  | .scanning _ => 2
  | .retracing _ => 0
  | _ => 1

end Duty

namespace StackEntry

/-- What an entry on the stack stands for. -/
def duty : StackEntry → Duty
  | .values range => .stored range
  | entry => .fresh entry.owner

def isValues : StackEntry → Bool
  | .values _ => true
  | _ => false

/-- A rope entry names a rope. -/
def Sensible (g : Graph) : StackEntry → Prop
  | .rope id => ∃ string, g.string? id = some string ∧ string.isRope = true
  | _ => True

/-- The entry that a duty is put on the stack as. -/
inductive Records (g : Graph) : StackEntry → Duty → Prop
  | whole {entry : StackEntry} (hwhole : entry.isValues = false) (hrope : entry.Sensible g) :
      Records g entry (.fresh entry.owner)
  | part {range : ValueRange} (hlt : range.start < range.stop) :
      Records g (.values range.inWords) (.cut range)

end StackEntry

/-- What an observer is told or asked. -/
inductive Notice
  | scanned (thing : Thing)
  | asked (entry : StackEntry)
deriving DecidableEq

structure Outline where
  marks : MarkTable
  work : Multiset Duty
  /-- The delayed things, the newest first. -/
  delayed : List Thing
  /-- What the observer has been told and asked, in order. -/
  notices : List Notice
  /-- The refused entries whose owners were delayed, in order. -/
  delays : List StackEntry
  /-- The base shapes that were marked as twins. -/
  shaded : List Thing

/-- A sound graph with what is fixed during a run: the filter, a set of things that
is closed under allowed children, whether a segment fits memory, and whether
nothing is ever refused. -/
structure Terrain where
  graph : Graph
  sound : graph.Sound
  filter : Option CompartmentId
  home : Thing → Prop
  home_allowed : ∀ thing, home thing → graph.Allowed filter thing
  home_child : ∀ parent child, home parent → graph.Child parent child →
    graph.Allowed filter child → home child
  roomy : Prop
  calm : Prop

namespace Outline

def Marked (o : Outline) (thing : Thing) : Prop :=
  o.marks.isMarked thing = true

/-- Nothing is left to be marked among the children of the thing. -/
def Done (o : Outline) (terrain : Terrain) (thing : Thing) : Prop :=
  ∀ child, terrain.graph.Child thing child → terrain.graph.Allowed terrain.filter child →
    o.Marked child

/-- Nothing is left to be marked among the values of the range. -/
def Read (o : Outline) (terrain : Terrain) (range : ValueRange) : Prop :=
  ∀ child, terrain.graph.Holds range child → terrain.graph.Allowed terrain.filter child →
    o.Marked child

def scans (o : Outline) (thing : Thing) : Nat :=
  o.notices.count (.scanned thing)

/-- How often the thing was delayed because a range of its values was refused. -/
def valueDelays (o : Outline) (thing : Thing) : Nat :=
  o.delays.countP fun entry => entry.isValues && entry.owner == thing

def mark (o : Outline) (thing : Thing) (color : Color) : Outline :=
  { o with marks := o.marks.set thing (.marked color) }

/-- The outline once an entry has been refused. -/
def refuse (o : Outline) (entry : StackEntry) : Outline :=
  if entry.owner ∈ o.delayed then
    { o with notices := o.notices ++ [.asked entry] }
  else
    { o with
      notices := o.notices ++ [.asked entry]
      delayed := entry.owner :: o.delayed
      delays := o.delays ++ [entry] }

end Outline

/-- How a duty becomes other duties, or none, without anything else happening. The
`others` are the duties beside it. -/
inductive Terrain.Turn (terrain : Terrain) (o : Outline) (others : Multiset Duty) :
    Duty → Multiset Duty → Prop
  | close {thing : Thing} (hdone : o.Done terrain thing) :
      Turn terrain o others (.scanning thing) 0
  /-- The children of an object that are not marked yet are left to two ranges. -/
  | spread {id : ObjectId} {aside range : ValueRange} (hquiet : ∀ thing, .retracing thing ∉ others)
      (hasideOwner : aside.owner = id) (hrangeOwner : range.owner = id)
      (hregions : aside.region ≠ range.region)
      (haside : terrain.graph.Admits aside) (hrange : terrain.graph.Admits range)
      (hcover : ∀ child, terrain.graph.Child id.thing child →
        terrain.graph.Allowed terrain.filter child →
        o.Marked child ∨ terrain.graph.Holds aside child ∨ terrain.graph.Holds range child) :
      Turn terrain o others (.scanning id.thing) {.cut aside, .reading range}
  | finish {thing : Thing} (hdone : o.Done terrain thing) :
      Turn terrain o others (.retracing thing) 0
  | read {range : ValueRange} (hquiet : ∀ thing, .retracing thing ∉ others) :
      Turn terrain o others (.stored range) {.reading range}
  /-- The first value of a range leads to nothing new. -/
  | pass {range : ValueRange} (hlt : range.start < range.stop)
      (hrest : ∀ child, terrain.graph.Holds range child →
        terrain.graph.Allowed terrain.filter child →
        o.Marked child ∨ terrain.graph.Holds range.rest child) :
      Turn terrain o others (.reading range) {.reading range.rest}
  /-- A range is given up when it leads to nothing new. -/
  | drop {duty : Duty} {range : ValueRange} (hduty : duty = .reading range ∨ duty = .cut range)
      (hread : o.Read terrain range) :
      Turn terrain o others duty 0

/-- The elementary moves. -/
inductive Terrain.Move (terrain : Terrain) : Outline → Outline → Prop
  | claim {o : Outline} {thing : Thing} (color : Color) (hhome : terrain.home thing)
      (hnew : ¬ o.Marked thing) :
      Move terrain o { o.mark thing color with work := .fresh thing ::ₘ o.work }
  /-- A base shape that is being scanned passes its mark on to its twin. -/
  | shade {o : Outline} {base twin : BaseShapeId} {cell : BaseShapeCell} (color : Color)
      (hbase : terrain.graph.baseShape? base = some cell) (htwin : cell.twin = some twin)
      (hscan : .scanning base.thing ∈ o.work) (hhome : terrain.home twin.thing)
      (hnew : ¬ o.Marked twin.thing) (hdone : o.Done terrain twin.thing) :
      Move terrain o { o.mark twin.thing color with shaded := twin.thing :: o.shaded }
  | scan {o : Outline} {thing : Thing} {others : Multiset Duty}
      (hwork : o.work = .fresh thing ::ₘ others) :
      Move terrain o { o with
        work := .scanning thing ::ₘ others
        notices := o.notices ++ [.scanned thing] }
  | turn {o : Outline} {duty : Duty} {duties others : Multiset Duty}
      (hwork : o.work = duty ::ₘ others) (hturn : terrain.Turn o others duty duties) :
      Move terrain o { o with work := duties + others }
  /-- The first value of a range is an object that nobody has marked. -/
  | find {o : Outline} {range : ValueRange} {thing : Thing} {others : Multiset Duty}
      (color : Color) (hwork : o.work = .reading range ::ₘ others)
      (hlt : range.start < range.stop) (hhome : terrain.home thing) (hnew : ¬ o.Marked thing)
      (hholds : terrain.graph.Holds range thing)
      (hrest : ∀ child, terrain.graph.Holds range child →
        child = thing ∨ terrain.graph.Holds range.rest child) :
      Move terrain o { o.mark thing color with
        work := .cut range.rest ::ₘ .fresh thing ::ₘ others }
  | store {o : Outline} {entry : StackEntry} {duty : Duty} {others : Multiset Duty}
      (hroomy : terrain.roomy) (hrecords : entry.Records terrain.graph duty)
      (hwork : o.work = duty ::ₘ others) :
      Move terrain o { o with
        work := entry.duty ::ₘ others
        notices := o.notices ++ [.asked entry] }
  | refuse {o : Outline} {entry : StackEntry} {duty : Duty} {others : Multiset Duty}
      (hcalm : ¬ terrain.calm) (hrecords : entry.Records terrain.graph duty)
      (hwork : o.work = duty ::ₘ others) :
      Move terrain o { o.refuse entry with work := others }
  /-- The newest delayed thing is taken up again. -/
  | resume {o : Outline} {thing : Thing} {delayed : List Thing}
      (hdelayed : o.delayed = thing :: delayed)
      (hidle : ∀ range, .reading range ∉ o.work ∧ .cut range ∉ o.work) :
      Move terrain o { o with
        delayed
        work := .retracing thing ::ₘ o.work
        notices := o.notices ++ [.scanned thing] }

/-- Any number of moves. -/
def Terrain.Run (terrain : Terrain) : Outline → Outline → Prop :=
  Relation.ReflTransGen terrain.Move

end MarkPhase
