import MarkPhase.Marker

/-!
An observer that keeps a record of what it is told and refuses entries by rule:
every so many attempts, all attempts after some number of them, entries of given
texts, or entries of given sorts. A silent one keeps nothing and refuses nothing.
-/

namespace MarkPhase

structure Recorder where
  silent : Bool := false
  every : Option Nat := none
  after : Option Nat := none
  entries : List String := []
  variants : List String := []
  /-- The number of entries it was asked about. -/
  attempts : Nat := 0
  events : Array String := #[]

namespace Recorder

/-- Whether some rule refuses the entry at this attempt. -/
def rejects (recorder : Recorder) (attempt : Nat) (entry : StackEntry) : Bool :=
  recorder.every.any (attempt % · == 0) || recorder.after.any (· < attempt) ||
    recorder.entries.contains entry.text || recorder.variants.contains entry.variant

def observer : Observer Recorder where
  onScan thing recorder :=
    if recorder.silent then
      recorder
    else
      { recorder with events := recorder.events.push ("scan " ++ thing.text) }
  refuses entry recorder :=
    if recorder.silent then
      (false, recorder)
    else
      let attempt := recorder.attempts + 1
      let refused := recorder.rejects attempt entry
      let event := (if refused then "veto " else "push ") ++ entry.text
      (refused, { recorder with attempts := attempt, events := recorder.events.push event })

/-- The recorder at work, starting from its present record. -/
def watcher (recorder : Recorder) : Watcher Recorder :=
  { observer, memory := recorder }

end Recorder

end MarkPhase
