import MarkPhase.Faults

/-!
A bounded stack stored in segments of one size. A full segment is set aside when
the next item arrives and taken back when the segment after it has run empty;
segments given up in this way are kept, up to a number, for later use. A stack
at its bound refuses items. A segment is laid out whole for its first item, so a
stack whose segments are larger than memory never holds anything.
-/

namespace MarkPhase

structure SegmentedStack (α : Type) where
  /-- The bytes that an item takes. -/
  itemBytes : Nat
  segmentSize : Nat
  maxCached : Nat
  /-- The bound on the number of items. -/
  maxSize : Nat
  /-- The newest segment, which is empty when it has run out. -/
  current : Array α := #[]
  /-- The full segments below it, the newest last. -/
  full : Array (Array α) := #[]
  /-- Empty segments kept for later use. -/
  cache : Array (Array α) := #[]
  /-- The greatest size since the stack was made or the peak was reset. -/
  peak : Nat := 0
deriving DecidableEq

namespace SegmentedStack

variable {α : Type}

/-- The bound that a given maximum stands for: zero stands for none, which is
the greatest size a word can hold. -/
def boundOf (maximum : Nat) : Nat :=
  if maximum = 0 then Nat.pow 2 64 - 1 else maximum

/-- The number of items of `size` bytes that share a page with two words. -/
def defaultSegmentSize (size : Nat) : Nat :=
  max 1 ((4096 - 16) / max 1 size)

def make (itemBytes segmentSize maxCached maximum : Nat) : Except Fault (SegmentedStack α) :=
  if segmentSize = 0 then
    .error .emptySegment
  else
    .ok { itemBytes, segmentSize, maxCached, maxSize := boundOf maximum }

def size (stack : SegmentedStack α) : Nat :=
  stack.full.size * stack.segmentSize + stack.current.size

def isEmpty (stack : SegmentedStack α) : Bool :=
  stack.current.isEmpty && stack.full.isEmpty

def isFull (stack : SegmentedStack α) : Bool :=
  decide (stack.maxSize ≤ stack.size)

/-- The newest item. -/
def top? (stack : SegmentedStack α) : Option α :=
  match stack.current.back? with
  | some item => some item
  | none => stack.full.back?.bind (·.back?)

/-- Changes the bound. Items above it stay. -/
def setMaximum (stack : SegmentedStack α) (maximum : Nat) : SegmentedStack α :=
  { stack with maxSize := boundOf maximum }

def resetPeak (stack : SegmentedStack α) : SegmentedStack α :=
  { stack with peak := stack.size }

/-- Raises the peak to the present size. -/
def notePeak (stack : SegmentedStack α) : SegmentedStack α :=
  { stack with peak := max stack.peak stack.size }

/-- Whether the stack takes another item. It does so below its bound, and fails
where there is no memory for a segment. -/
def admits (stack : SegmentedStack α) : Except Fault Bool :=
  if stack.isFull then .ok false
  else
    match allocationFault? stack.segmentSize stack.itemBytes with
    | none => .ok true
    | some fault => .error fault

/-- Adds an item that is known to be admitted. A full segment makes room by
taking its place among the full ones. -/
def extend (stack : SegmentedStack α) (item : α) : SegmentedStack α :=
  if stack.current.size = stack.segmentSize then
    match stack.cache.back? with
    | none => { stack with full := stack.full.push stack.current, current := #[item] }
    | some segment =>
      { stack with
        full := stack.full.push stack.current
        current := segment.push item
        cache := stack.cache.pop }
  else
    { stack with current := stack.current.push item }

/-- Adds an item if the stack takes it, and tells whether it did. -/
def push (stack : SegmentedStack α) (item : α) : Except Fault (Bool × SegmentedStack α) := do
  if ← stack.admits then
    return (true, (stack.extend item).notePeak)
  else
    return (false, stack)

/-- A cache with one more segment, if there is room for it. -/
def retired (maxCached : Nat) (cache : Array (Array α)) (segment : Array α) :
    Array (Array α) :=
  if cache.size < maxCached then cache.push segment else cache

/-- Removes the newest item. -/
def pop (stack : SegmentedStack α) : Option α × SegmentedStack α :=
  match stack.current.back? with
  | some item => (some item, { stack with current := stack.current.pop })
  | none =>
    match stack.full.back? with
    | none => (none, stack)
    | some segment =>
      -- Once it has left `full`, the segment is changed in place.
      let full := stack.full.pop
      (segment.back?,
        { stack with
          cache := retired stack.maxCached stack.cache stack.current
          current := segment.pop
          full })

/-- Drops every item. The segments go to the cache as far as it has room, or the
cache is dropped as well. -/
def clear (stack : SegmentedStack α) (dropCache : Bool) : SegmentedStack α :=
  if dropCache then
    { stack with current := #[], full := #[], cache := #[] }
  else
    let room := min stack.full.size (stack.maxCached - stack.cache.size)
    { stack with
      current := #[]
      full := #[]
      cache := stack.cache ++ Array.replicate room #[] }

end SegmentedStack

end MarkPhase
