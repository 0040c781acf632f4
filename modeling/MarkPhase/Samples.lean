import MarkPhase.Construction

/-!
Heaps of a regular form: ropes, lineages and chains of a given length, and
balanced trees of ropes and of objects. They are the deep structures on which a
marker that recursed would fail.
-/

namespace MarkPhase

namespace Sample

/-- Joins a piece of one letter to a rope, `count` times, always on one side. -/
def growRope (compartment : CompartmentId) (onLeft : Bool) :
    (count : Nat) → StringId → Builder StringId
  | 0, rope => return rope
  | count + 1, rope => do
    let piece ← Builder.newString compartment "b"
    let joined ←
      if onLeft then Builder.concat compartment piece rope
      else Builder.concat compartment rope piece
    growRope compartment onLeft count joined

/-- A rope with `count` pieces on one side of it. -/
def ropeChain (compartment : CompartmentId) (count : Nat) (onLeft : Bool) :
    Builder StringId := do
  growRope compartment onLeft count (← Builder.newString compartment "a")

/-- Joins neighbours in pairs. -/
def joinPairs (compartment : CompartmentId) : List StringId → Builder (List StringId)
  | left :: right :: rest => do
    let joined ← Builder.concat compartment left right
    return joined :: (← joinPairs compartment rest)
  | rest => return rest

/-- Joins neighbours until the levels are used up. -/
def joinLevels (compartment : CompartmentId) : (levels : Nat) → List StringId → Builder StringId
  | 0, strings => need strings.head?
  | levels + 1, strings => do
    joinLevels compartment levels (← joinPairs compartment strings)

/-- A balanced rope over the numerals from zero on. -/
def ropeTree (compartment : CompartmentId) (depth : Nat) : Builder StringId := do
  let leaves ← (List.range (Nat.pow 2 depth)).mapM fun number =>
    Builder.newString compartment (toString number)
  joinLevels compartment depth leaves

/-- A lineage of `count` shapes with integer names on top of `last`. -/
def shapeChain (compartment : CompartmentId) (base : BaseShapeId) (count : Nat)
    (last : Option ShapeId) : Builder (Option ShapeId) :=
  (List.range count).foldlM (fun last (number : Nat) =>
    return some (← Builder.newShape compartment base (.int number) last)) last

/-- What the objects of a sample have in common. -/
structure Plan where
  compartment : CompartmentId
  type : TypeObjectId
  shape : ShapeId
  fixed : Nat

def newNode (plan : Plan) : Builder ObjectId :=
  Builder.newObject plan.compartment plan.type plan.shape plan.fixed

/-- A chain of `count` objects, each with the one before it in slot 0. -/
def objectChain (plan : Plan) (count : Nat) : Builder (Option ObjectId) :=
  (List.range count).foldlM (fun last _ => do
    let next ← newNode plan
    if let some previous := last then
      Builder.setSlot next 0 (.object previous)
    return some next) none

/-- A binary tree of objects. Slots 0 and 1 of an inner object hold its two
subtrees. -/
def objectTree (plan : Plan) : (depth : Nat) → Builder ObjectId
  | 0 => newNode plan
  | depth + 1 => do
    let node ← newNode plan
    let left ← objectTree plan depth
    let right ← objectTree plan depth
    Builder.setSlot node 0 (.object left)
    Builder.setSlot node 1 (.object right)
    return node

end Sample

end MarkPhase
