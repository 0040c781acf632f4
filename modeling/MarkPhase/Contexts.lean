import MarkPhase.Things

/-!
What a tracer carries from edge to edge: a label of the edge at hand, for
diagnosis only, and the compartment it is confined to, if any. A confined tracer
still lets the atoms compartment through.
-/

namespace MarkPhase

inductive Label
  | blank
  | named (name : String)
  | indexed (name : String) (index : Nat)
  | slot (object : ObjectId) (index : Nat)
deriving DecidableEq, Inhabited

namespace Label

def name? : Label → Option String
  | .named name => some name
  | .indexed name _ => some name
  | _ => none

def index? : Label → Option Nat
  | .indexed _ index => some index
  | _ => none

def slot? : Label → Option (ObjectId × Nat)
  | .slot object index => some (object, index)
  | _ => none

def isBlank : Label → Bool
  | .blank => true
  | _ => false

def text : Label → String
  | .blank => "<unknown>"
  | .named name => name
  | .indexed name index => name ++ "[" ++ toString index ++ "]"
  | .slot object index => object.text ++ ".slot[" ++ toString index ++ "]"

end Label

structure Context where
  compartment : Option CompartmentId := none
  label : Label := .blank
deriving DecidableEq, Inhabited

namespace Context

def allows (context : Context) (compartment : CompartmentId) : Bool :=
  match context.compartment with
  | none => true
  | some current => compartment == current || compartment == .atoms

end Context

end MarkPhase
