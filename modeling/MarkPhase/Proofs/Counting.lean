import MarkPhase.Draining
import MarkPhase.Proofs.Outcomes

/-!
Drains that count. Beside each drain stands one that does the same and counts its units
of work: the entries taken from the stack, the objects scanned where they were found and
the delayed things traced. Without the count it is the drain itself.
-/

namespace MarkPhase

namespace MarkM

variable {ω : Type} (g : Graph)

def countStack : (units : Nat) → Option ObjectId → Budget → MarkM ω ((Bool × Budget) × Nat)
  | 0, _, _ => throw .endless
  | units + 1, found, budget => do
    if found.isNone && (← get).stack.isEmpty then
      return ((true, budget), 0)
    let next ← advance g found
    let budget := budget.step 1
    if budget.isOver then
      if let some id := next then
        pushEntry (.object id)
      record (.overBudget (← get).stack.size)
      return ((false, budget), 1)
    let (answer, count) ← countStack units next budget
    return (answer, count + 1)

def countDelayed : (units : Nat) → Budget → MarkM ω ((Bool × Budget) × Nat)
  | 0, _ => throw .endless
  | units + 1, budget => do
    let next ← modifyGet fun s =>
      let (thing, delayed) := s.delayed.pop
      (thing, { s with delayed })
    match next with
    | none => return ((true, budget), 0)
    | some thing =>
      record (.resumedThing thing)
      noteScan thing
      follow g (pushThing g) (childVisits g true thing)
      let budget := budget.step 1
      if budget.isOver then
        return ((false, budget), 1)
      let (answer, count) ← countDelayed units budget
      return (answer, count + 1)

def countRounds (units : Nat) : (rounds : Nat) → Budget → MarkM ω (Bool × Nat)
  | 0, _ => throw .endless
  | rounds + 1, budget => do
    let ((stackDone, budget), stacked) ← countStack g units none budget
    if !stackDone then
      return (false, stacked)
    let s ← get
    if s.delayed.isEmpty then
      record (.drained s.statistics)
      return (true, stacked)
    record (.delayedPhase s.delayed.size)
    let ((delayedDone, budget), delayed) ← countDelayed g units budget
    if !delayedDone then
      return (false, stacked + delayed)
    let (drained, count) ← countRounds units rounds budget
    return (drained, stacked + delayed + count)

/-- A drain with the number of its units. -/
def countDrain (budget : Budget) : MarkM ω (Bool × Nat) := do
  modify fun s => { s with slices := s.slices + 1 }
  let units ← workBound g
  countRounds g units units budget

def countTrace (budget : Budget) : MarkM ω ((Bool × Budget) × Nat) := do
  countDelayed g (← workBound g) budget

theorem fst_countStack (units : Nat) (found : Option ObjectId) (budget : Budget) :
    Prod.fst <$> countStack g units found budget =
      (drainStack g units found budget : MarkM ω (Bool × Budget)) := by
  induction units generalizing found budget with
  | zero => rfl
  | succ units ih =>
    simp only [countStack, drainStack, map_bind, ← ih]
    refine bind_congr fun s => ?_
    split
    · rfl
    · simp only [map_bind]
      refine bind_congr fun next => ?_
      split
      · cases next <;> simp only [map_bind, map_pure]
      · simp

theorem fst_countDelayed (units : Nat) (budget : Budget) :
    Prod.fst <$> countDelayed g units budget =
      (drainDelayed g units budget : MarkM ω (Bool × Budget)) := by
  induction units generalizing budget with
  | zero => rfl
  | succ units ih =>
    simp only [countDelayed, drainDelayed, map_bind, ← ih]
    refine bind_congr fun next => ?_
    cases next with
    | none => rfl
    | some thing =>
      simp only [map_bind]
      refine bind_congr fun _ => bind_congr fun _ => bind_congr fun _ => ?_
      split
      · rfl
      · simp

theorem fst_countRounds (units rounds : Nat) (budget : Budget) :
    Prod.fst <$> countRounds g units rounds budget =
      (drainRounds g units rounds budget : MarkM ω Bool) := by
  induction rounds generalizing budget with
  | zero => rfl
  | succ rounds ih =>
    simp only [countRounds, drainRounds, map_bind, ← ih, ← fst_countStack, bind_map_left]
    refine bind_congr fun stacked => ?_
    split
    · rfl
    · simp only [map_bind]
      refine bind_congr fun s => ?_
      split
      · rfl
      · simp only [map_bind, ← fst_countDelayed, bind_map_left]
        refine bind_congr fun _ => bind_congr fun delayed => ?_
        split
        · rfl
        · simp

theorem fst_countDrain (budget : Budget) :
    Prod.fst <$> countDrain g budget = (drain g budget : MarkM ω Bool) := by
  simp only [countDrain, drain, map_bind, fst_countRounds]

theorem fst_countTrace (budget : Budget) :
    Prod.fst <$> countTrace g budget = (traceDelayed g budget : MarkM ω (Bool × Budget)) := by
  simp only [countTrace, traceDelayed, map_bind, fst_countDelayed]

end MarkM

end MarkPhase
