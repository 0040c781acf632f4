import MarkPhase.Things
import Std.Data.TreeSet

/-!
Things whose children wait until the mark stack has run empty. The last one in
is the first one out, and no thing waits twice at a time. A set of their codes
tells at once whether a thing waits.
-/

namespace MarkPhase

structure DelayedList where
  /-- The waiting things, the newest first. -/
  things : List Thing := []
  /-- The codes of the waiting things. -/
  codes : Std.TreeSet Nat := {}
deriving Inhabited

namespace DelayedList

def contains (delayed : DelayedList) (thing : Thing) : Bool :=
  delayed.codes.contains thing.code

/-- Adds a thing unless it is waiting already, and tells whether it did. -/
def add (delayed : DelayedList) (thing : Thing) : Bool × DelayedList :=
  if delayed.contains thing then
    (false, delayed)
  else
    (true, ⟨thing :: delayed.things, delayed.codes.insert thing.code⟩)

def pop (delayed : DelayedList) : Option Thing × DelayedList :=
  match delayed.things with
  | [] => (none, delayed)
  | thing :: rest => (some thing, ⟨rest, delayed.codes.erase thing.code⟩)

def size (delayed : DelayedList) : Nat :=
  delayed.things.length

def isEmpty (delayed : DelayedList) : Bool :=
  delayed.things.isEmpty

end DelayedList

end MarkPhase
