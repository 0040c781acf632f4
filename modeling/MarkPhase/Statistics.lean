import MarkPhase.Things

/-!
Counts that a marker keeps about its run: the scans by kind, the things it had
to delay, the greatest depth of its stack and the slices it was given.
-/

namespace MarkPhase

/-- A count for every kind. -/
abbrev KindCounts := Vector Nat 7

namespace KindCounts

def zero : KindCounts :=
  Vector.replicate 7 0

def count (counts : KindCounts) (kind : Kind) : Nat :=
  counts[kind.place]

def bump (counts : KindCounts) (kind : Kind) : KindCounts :=
  counts.set kind.place (counts.count kind + 1)

def total (counts : KindCounts) : Nat :=
  Kind.all.foldl (fun total kind => total + counts.count kind) 0

end KindCounts

structure Statistics where
  scanned : KindCounts := KindCounts.zero
  delayed : Nat := 0
  peakDepth : Nat := 0
  slices : Nat := 0
deriving DecidableEq

namespace Statistics

def text (statistics : Statistics) : String :=
  String.join (Kind.all.map fun kind =>
      kind.name ++ ": " ++ toString (statistics.scanned.count kind) ++ ", ") ++
    "delayed: " ++ toString statistics.delayed ++
    ", peak depth: " ++ toString statistics.peakDepth ++
    ", slices: " ++ toString statistics.slices

end Statistics

end MarkPhase
