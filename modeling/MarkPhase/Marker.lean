import MarkPhase.Calls
import MarkPhase.Configuration
import MarkPhase.DelayedList
import MarkPhase.Heap

/-!
The marker and its elementary moves: shading a thing, noting a scan, recording
work on the stack and delaying a thing whose work was refused. A marker runs over
a fixed graph and writes to the ledger of the heap.
-/

namespace MarkPhase

/-- Someone who watches a marker, with a memory `ω` of their own. An observer is
told of every scan and may refuse any entry its place on the stack. -/
structure Observer (ω : Type) where
  onScan : Thing → ω → ω
  refuses : StackEntry → ω → Bool × ω

/-- An observer together with its present memory. -/
structure Watcher (ω : Type) where
  observer : Observer ω
  memory : ω

namespace Observer

/-- Watches without remembering or refusing anything. -/
def silent {ω : Type} : Observer ω where
  onScan _ memory := memory
  refuses _ memory := (false, memory)

end Observer

structure Marker (ω : Type) where
  context : Context := {}
  color : Color := .black
  stack : SegmentedStack StackEntry
  delayed : DelayedList := {}
  /-- The scans of each kind. -/
  scanned : KindCounts := KindCounts.zero
  /-- The number of times a thing was put on the delayed list. -/
  delays : Nat := 0
  slices : Nat := 0
  watcher : Option (Watcher ω) := none

namespace Marker

variable {ω : Type}

/-- A marker without work. Its stack needs segments that can hold something. -/
def make (configuration : Configuration) : Except Fault (Marker ω) := do
  let stack ← SegmentedStack.make entryBytes configuration.segmentSize
    configuration.maxCached configuration.stackLimit
  return { stack }

/-- Whether no work is left at all. -/
def isDrained (marker : Marker ω) : Bool :=
  marker.stack.isEmpty && marker.delayed.isEmpty

def statistics (marker : Marker ω) : Statistics where
  scanned := marker.scanned
  delayed := marker.delays
  peakDepth := marker.stack.peak
  slices := marker.slices

/-- Drops all pending work and all counts. -/
def reset (marker : Marker ω) : Marker ω :=
  { marker with
    stack := (marker.stack.clear false).resetPeak
    delayed := {}
    scanned := KindCounts.zero
    delays := 0
    slices := 0 }

end Marker

/-- A marker at work, with the ledger it writes to. -/
structure Marking (ω : Type) extends Ledger, Marker ω

/-- A move of a marker at work, which may fail. -/
abbrev MarkM (ω : Type) := EStateM Fault (Marking ω)

namespace MarkM

variable {ω : Type}

def record (entry : Record) : MarkM ω Unit :=
  modify fun s => { s with journal := s.journal.push entry }

def setLabel (label : Label) : MarkM ω Unit :=
  modify fun s => { s with context := { s.context with label } }

def color : MarkM ω Color := do
  return (← get).color

/-- Shades a thing that the marker may mark and nobody has marked. The answer
tells whether this was so. -/
def claim (g : Graph) (thing : Thing) (color : Color) : MarkM ω Bool := do
  let compartment ← need (g.compartmentOf? thing)
  if (← get).context.allows compartment then
    modifyGet fun s =>
      if s.marks.isMarked thing then
        (false, s)
      else
        (true, { s with marks := s.marks.set thing (.marked color) })
  else
    return false

/-- Strings are always black: nothing but strings is reached from them. -/
def claimString (g : Graph) (id : StringId) : MarkM ω Bool :=
  claim g id.thing .black

/-- Counts a scan of the children of a thing and tells the observer. -/
def noteScan (thing : Thing) : MarkM ω Unit :=
  modify fun s =>
    { s with
      scanned := s.scanned.bump thing.kind
      watcher := s.watcher.map fun watcher =>
        { watcher with memory := watcher.observer.onScan thing watcher.memory } }

/-- Puts the marked owner of a refused entry on the delayed list. -/
def delay (entry : StackEntry) : MarkM ω Unit := do
  if (← get).marks.isMarked entry.owner then
    let added ← modifyGet fun s =>
      let (added, delayed) := s.delayed.add entry.owner
      (added, { s with delayed })
    if added then
      modify fun s => { s with delays := s.delays + 1 }
      record (.delayedOwner entry)
  else
    throw (.delayedUnmarked entry.owner)

/-- Asks the observer, if there is one, about an entry. -/
def isRefused (entry : StackEntry) : MarkM ω Bool :=
  modifyGet fun s =>
    match s.watcher with
    | none => (false, s)
    | some watcher =>
      let (refused, memory) := watcher.observer.refuses entry watcher.memory
      (refused, { s with watcher := some { watcher with memory } })

/-- Records an entry, or delays its owner where the observer or the stack
refuses it. The observer is asked first. -/
def pushEntry (entry : StackEntry) : MarkM ω Unit := do
  if ← isRefused entry then
    delay entry
  else
    match (← get).stack.admits with
    | .ok true => modify fun s => { s with stack := (s.stack.extend entry).notePeak }
    | .ok false => delay entry
    | .error fault => throw fault

def popEntry : MarkM ω (Option StackEntry) :=
  modifyGet fun s =>
    let (entry, stack) := s.stack.pop
    (entry, { s with stack })

/-- Records a range of values, unless it is empty. What is saved of its ends are words. -/
def pushRange (range : ValueRange) : MarkM ω Unit := do
  if range.stop < range.start then
    throw (.reversedRange range)
  if range.start < range.stop then
    pushEntry (.values range.inWords)

end MarkM

end MarkPhase
