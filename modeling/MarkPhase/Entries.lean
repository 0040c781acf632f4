import MarkPhase.Memory
import MarkPhase.Objects

/-!
Work items of the mark stack. An item is a thing still to be scanned, the unread
part of one region of an object, or a rope that a rope walk has set aside. Each
item belongs to one thing, whose children it is about.
-/

namespace MarkPhase

/-- The values of one region of `owner` from index `start` up to, and without,
index `stop`. -/
structure ValueRange where
  owner : ObjectId
  region : Region
  start : Nat
  stop : Nat
deriving DecidableEq, Inhabited

/-- The range as an entry saves it, with ends that are words. -/
def ValueRange.inWords (range : ValueRange) : ValueRange :=
  { range with start := toWord range.start, stop := toWord range.stop }

inductive StackEntry
  | object (id : ObjectId)
  | typeObject (id : TypeObjectId)
  | xml (id : XmlId)
  | values (range : ValueRange)
  | rope (id : StringId)
deriving DecidableEq, Inhabited

namespace StackEntry

/-- The thing whose children the entry stands for. -/
def owner : StackEntry → Thing
  | .object id => id.thing
  | .typeObject id => id.thing
  | .xml id => id.thing
  | .values range => range.owner.thing
  | .rope id => id.thing

/-- The entry's name without its contents. -/
def variant : StackEntry → String
  | .object _ => "Object"
  | .typeObject _ => "TypeObject"
  | .xml _ => "Xml"
  | .values _ => "ValueArray"
  | .rope _ => "Rope"

def text : StackEntry → String
  | .values range =>
    "ValueArray \x7b owner: " ++ range.owner.text ++ ", region: " ++ range.region.title ++
      ", start: " ++ toString range.start ++ ", end: " ++ toString range.stop ++ " \x7d"
  | entry => entry.variant ++ "(" ++ entry.owner.text ++ ")"

end StackEntry

end MarkPhase
