/-!
Object classes. A class says whether its objects keep their properties in slots
and which extra edges it reports. The three standing classes and a custom class
of the same contents are different classes: classes are told apart by identity
and not by name.
-/

namespace MarkPhase

/-- What a class reports about an object beyond its type, shape and slots. -/
inductive Hook
  /-- Every dense element that names a thing. -/
  | elements
  /-- The private thing, if there is one. -/
  | privateThing
deriving DecidableEq, Inhabited

inductive Class
  | plain
  | array
  | function
  | custom (name : String) (native : Bool) (hook : Option Hook)
deriving DecidableEq, Inhabited

namespace Class

def name : Class → String
  | .plain => "Object"
  | .array => "Array"
  | .function => "Function"
  | .custom name _ _ => name

/-- Objects of a native class keep their properties in slots. -/
def native : Class → Bool
  | .plain => true
  | .array => false
  | .function => true
  | .custom _ native _ => native

def hook : Class → Option Hook
  | .plain => none
  | .array => some .elements
  | .function => some .privateThing
  | .custom _ _ hook => hook

end Class

end MarkPhase
