import MarkPhase.Things

/-!
Slot values and property ids. Only strings and objects among them name things;
every other value is a plain datum. Doubles are kept as the bits of their IEEE
representation and compared as numbers.
-/

namespace MarkPhase

/-- A binary64 number, by its bits. -/
structure Double where
  bits : UInt64
deriving DecidableEq, Inhabited

namespace Double

/-- The bits of the magnitude: all but the sign. -/
def magnitude (x : Double) : UInt64 :=
  x.bits &&& 0x7fffffffffffffff

/-- A magnitude above that of infinity is no number. -/
def isNaN (x : Double) : Bool :=
  decide (0x7ff0000000000000 < x.magnitude)

/-- Equality of numbers: no number equals a NaN, and both zeros are equal. -/
def equals (x y : Double) : Bool :=
  !x.isNaN && !y.isNaN && (x.bits == y.bits || (x.magnitude == 0 && y.magnitude == 0))

end Double

inductive Value
  | undefined
  | null
  | boolean (value : Bool)
  | int32 (value : Int)
  | double (value : Double)
  | string (id : StringId)
  | object (id : ObjectId)
deriving DecidableEq, Inhabited

namespace Value

/-- The bytes that a value takes. -/
def bytes : Nat := 16

def thing? : Value → Option Thing
  | .string id => some id.thing
  | .object id => some id.thing
  | _ => none

def isMarkable (value : Value) : Bool :=
  value.thing?.isSome

/-- Equality of values, which compares doubles as numbers. -/
def equals : Value → Value → Bool
  | .undefined, .undefined => true
  | .null, .null => true
  | .boolean a, .boolean b => a == b
  | .int32 a, .int32 b => a == b
  | .double a, .double b => a.equals b
  | .string a, .string b => a == b
  | .object a, .object b => a == b
  | _, _ => false

end Value

/-- The name of a property: nothing, an integer, a string or an object. -/
inductive PropertyId
  | void
  | int (value : Int)
  | string (id : StringId)
  | object (id : ObjectId)
deriving DecidableEq, Inhabited

namespace PropertyId

def thing? : PropertyId → Option Thing
  | .string id => some id.thing
  | .object id => some id.thing
  | _ => none

end PropertyId

end MarkPhase
