import MarkPhase.Values

/-!
Objects and their slots. The first slots of an object are stored inline, the
later ones in an overflow vector that appears when one of them is first written.
The span is one more than the highest slot ever written, and slots below it that
were never written hold undefined.
-/

namespace MarkPhase

/-- The three contiguous runs of values an object can have. -/
inductive Region
  | fixed
  | dynamic
  | elements
deriving DecidableEq, Inhabited

namespace Region

def title : Region → String
  | .fixed => "Fixed"
  | .dynamic => "Dynamic"
  | .elements => "Elements"

end Region

structure ObjectCell where
  compartment : CompartmentId
  type : TypeObjectId
  shape : ShapeId
  inlineSlots : Array Value
  overflow : Option (Array Value) := none
  span : Nat := 0
  elements : Array Value := #[]
  privateThing : Option Thing := none
deriving Inhabited

namespace ObjectCell

/-- An object with `fixed` inline slots and nothing written yet. -/
def make (compartment : CompartmentId) (type : TypeObjectId) (shape : ShapeId)
    (fixed : Nat) : ObjectCell :=
  { compartment, type, shape, inlineSlots := Array.replicate fixed .undefined }

/-- The number of values in use in a region. -/
def regionSize (object : ObjectCell) : Region → Nat
  | .fixed => min object.span object.inlineSlots.size
  | .dynamic =>
    match object.overflow with
    | some slots => min (object.span - object.inlineSlots.size) slots.size
    | none => 0
  | .elements => object.elements.size

def regionValue (object : ObjectCell) (region : Region) (index : Nat) : Value :=
  match region with
  | .fixed => object.inlineSlots.getD index .undefined
  | .dynamic => (object.overflow.getD #[]).getD index .undefined
  | .elements => object.elements.getD index .undefined

/-- The values in use in a region, in order. -/
def region (object : ObjectCell) (region : Region) : List Value :=
  (List.range (object.regionSize region)).map (object.regionValue region)

/-- A slot below the span: inline slots come first, then the overflow. -/
def slot (object : ObjectCell) (index : Nat) : Value :=
  if index < object.inlineSlots.size then
    object.regionValue .fixed index
  else
    object.regionValue .dynamic (index - object.inlineSlots.size)

/-- The length that the overflow needs to hold a slot. -/
def overflowLength (object : ObjectCell) (index : Nat) : Nat :=
  if index < object.inlineSlots.size then 0 else index - object.inlineSlots.size + 1

/-- A vector with `value` at `index`, lengthened by undefined values if need be. -/
def stored (slots : Array Value) (index : Nat) (value : Value) : Array Value :=
  if index < slots.size then
    slots.setIfInBounds index value
  else
    (slots ++ Array.replicate (index - slots.size) Value.undefined).push value

/-- Writes a slot. Spans are counted in 32 bits, and the answer is `none` where
the span would no longer fit. -/
def write? (object : ObjectCell) (index : Nat) (value : Value) : Option ObjectCell :=
  let written :=
    if index < object.inlineSlots.size then
      { object with inlineSlots := object.inlineSlots.setIfInBounds index value }
    else
      { object with
        overflow := some (stored (object.overflow.getD #[])
          (index - object.inlineSlots.size) value) }
  if index < written.span then
    some written
  else if index % Nat.pow 2 32 + 1 < Nat.pow 2 32 then
    some { written with span := index % Nat.pow 2 32 + 1 }
  else
    none

end ObjectCell

end MarkPhase
