import MarkPhase.Proofs.Moves
import MarkPhase.Proofs.Safety

/-!
What all slices have in common. Between two units of work a marker looks at how much is
left to do. A property that every move within a unit has, and that looking, noting and
taking the next delayed thing have as well, is a property of whole slices and of whole
sessions. This goes by induction on the units, on the rounds and on the steps.
-/

namespace MarkPhase

variable {ω : Type}

/-- What a marker looks at between two units of work. -/
structure Agenda where
  idle : Bool
  depth : Nat
  delayed : DelayedList
  statistics : Statistics

def Marker.agenda (marker : Marker ω) : Agenda where
  idle := marker.stack.isEmpty
  depth := marker.stack.size
  delayed := marker.delayed
  statistics := marker.statistics

/-- What a step answers. A call answers nothing, and a delayed slice tells what it has left of
its budget. -/
inductive Reply
  | nothing
  | drained (finished : Bool)
  | traced (finished : Bool) (left : Budget)
deriving DecidableEq

namespace Step

/-- A step with its answer. -/
def reply (g : Graph) : Step → MarkM ω Reply
  | .call request => do
    MarkM.make g request
    return .nothing
  | .slice budget => do
    let finished ← MarkM.drain g budget
    return .drained finished
  | .delayedSlice budget => do
    let (finished, left) ← MarkM.traceDelayed g budget
    return .traced finished left

/-- Steps made one after the other, with all their answers. -/
def replies (g : Graph) : List Step → MarkM ω (List Reply)
  | [] => return []
  | step :: steps => do
    let first ← step.reply g
    let others ← replies g steps
    return first :: others

theorem map_reply (g : Graph) (step : Step) :
    (fun _ => ()) <$> step.reply g = (step.make g : MarkM ω Unit) := by
  cases step <;> simp [reply, make]

theorem map_replies (g : Graph) (steps : List Step) :
    (fun _ => ()) <$> replies g steps = (steps.forM (make g) : MarkM ω Unit) := by
  induction steps with
  | nil => rfl
  | cons step steps ih =>
    change _ = step.make g >>= fun _ => steps.forM (make g)
    rw [← ih, ← map_reply, bind_map_left]
    simp [replies]

end Step

namespace Launch.Ready

variable {L : Launch ω} {s : Marking ω} {steps : List Step}

theorem yields_replies (h : L.Ready s)
    (hknown : ∀ step ∈ steps, (Command.step step).KnownOn L.graph) :
    Yields (Step.replies L.graph steps) s (fun _ => L.Ready) fun fault _ =>
      allocationFault? L.configuration.segmentSize entryBytes = some fault := by
  have hsteps := h.yields_steps hknown
  rwa [← Step.map_replies, yields_map] at hsteps

/-- Where segments fit memory, steps that name what is there all answer. -/
theorem exists_replies (h : L.Ready s)
    (hfits : fitsMemory L.configuration.segmentSize entryBytes = true)
    (hknown : ∀ step ∈ steps, (Command.step step).KnownOn L.graph) :
    ∃ answers t, Step.replies L.graph steps s = .ok answers t := by
  obtain ⟨answers, t, ht, -⟩ := exists_of_fits hfits (h.yields_replies hknown)
  exact ⟨answers, t, ht⟩

end Launch.Ready

open MarkM

/-- Traces the children of the newest delayed thing, if there is one. -/
def MarkM.resumeDelayed (g : Graph) : MarkM ω Bool := do
  let next ← modifyGet fun s => (s.delayed.pop.1, { s with delayed := s.delayed.pop.2 })
  match next with
  | none => return false
  | some thing =>
    record (.resumedThing thing)
    noteScan thing
    follow g (pushThing g) (childVisits g true thing)
    return true

theorem MarkM.drainDelayed_succ (g : Graph) (units : Nat) (budget : Budget) :
    drainDelayed g (units + 1) budget = (do
      if ← resumeDelayed g then
        if (budget.step 1).isOver then
          return (false, budget.step 1)
        drainDelayed g units (budget.step 1)
      else
        return (true, budget) : MarkM ω (Bool × Budget)) := by
  rw [drainDelayed, resumeDelayed, bind_assoc]
  refine bind_congr fun next => ?_
  cases next <;> simp

/-- The property passes on from the elementary moves over `g` to whole slices. -/
structure Sustained (g : Graph) (names : String → Prop) (good : ∀ {α : Type}, MarkM ω α → Prop) :
    Prop extends Inherited g names good where
  record : ∀ entry, good (record entry)
  resumeDelayed : good (resumeDelayed g)
  countSlice : good (modify fun s => { s with slices := s.slices + 1 })
  agenda : good (do return (← get).agenda)

namespace Sustained

variable {g : Graph} {names : String → Prop} {good : ∀ {α : Type}, MarkM ω α → Prop}
variable (h : Sustained g names good)

include h

/-- What follows depends only on what a marker looks at. -/
theorem bind_agenda {α : Type} {f : Agenda → MarkM ω α} (hf : ∀ agenda, good (f agenda)) :
    good (do f (← get).agenda) := by
  have hread : (do f (← get).agenda) = (do return (← get).agenda : MarkM ω Agenda) >>= f := by
    simp only [bind_assoc, pure_bind]
  rw [hread]
  exact h.bind h.agenda hf

theorem drainStack (units : Nat) (found : Option ObjectId) (budget : Budget) :
    good (drainStack g units found budget) := by
  induction units generalizing found budget with
  | zero => exact h.throw .endless
  | succ units ih =>
    have hcut : good (do
        MarkM.record (.overBudget (← get).agenda.depth)
        return (false, budget.step 1)) :=
      h.bind_agenda fun agenda => h.bind (h.record (.overBudget agenda.depth)) fun _ => h.pure _
    refine h.bind_agenda (f := fun agenda => if found.isNone && agenda.idle then _ else _)
      fun agenda => h.ite (h.pure _) ?_
    refine h.bind (h.advance found) fun next => h.ite ?_ (ih next _)
    cases next with
    | none => exact hcut
    | some id => exact h.bind (h.pushEntry _) fun _ => hcut

theorem drainDelayed (units : Nat) (budget : Budget) : good (drainDelayed g units budget) := by
  induction units generalizing budget with
  | zero => exact h.throw .endless
  | succ units ih =>
    rw [drainDelayed_succ]
    exact h.bind h.resumeDelayed fun _ => h.ite (h.ite (h.pure _) (ih _)) (h.pure _)

theorem drainRounds (units rounds : Nat) (budget : Budget) :
    good (drainRounds g units rounds budget) := by
  induction rounds generalizing budget with
  | zero => exact h.throw .endless
  | succ rounds ih =>
    refine h.bind (h.drainStack units none budget) fun answer => h.ite (h.pure _) ?_
    refine h.bind_agenda (f := fun agenda => if agenda.delayed.isEmpty then
      (do MarkM.record (.drained agenda.statistics); return true) else
      (do MarkM.record (.delayedPhase agenda.delayed.size)
          let (delayedDone, budget) ← MarkM.drainDelayed g units answer.2
          if !delayedDone then return false
          MarkM.drainRounds g units rounds budget)) fun agenda => ?_
    refine h.ite (h.bind (h.record _) fun _ => h.pure _) (h.bind (h.record _) fun _ => ?_)
    exact h.bind (h.drainDelayed units answer.2) fun rest => h.ite (h.pure _) (ih rest.2)

theorem bind_workBound {α : Type} {f : Nat → MarkM ω α} (hf : ∀ units, good (f units)) :
    good (workBound g >>= f) := by
  have hread : workBound g >>= f = (do
      let agenda := (← get).agenda
      f (4 * g.thingCount + 2 * agenda.depth + agenda.delayed.size + 3)) := by
    simp only [workBound, bind_assoc, pure_bind]
    rfl
  rw [hread]
  exact h.bind_agenda (f := fun agenda =>
    f (4 * g.thingCount + 2 * agenda.depth + agenda.delayed.size + 3)) fun _ => hf _

theorem drain (budget : Budget) : good (drain g budget) :=
  h.bind h.countSlice fun _ => h.bind_workBound fun units => h.drainRounds units units budget

theorem traceDelayed (budget : Budget) : good (traceDelayed g budget) :=
  h.bind_workBound fun units => h.drainDelayed units budget

theorem step {step : Step} (hnames : ∀ request, step = .call request →
      ∀ filter, KeepsOnly names (request.visits g true { compartment := filter })) :
    good (step.make g) := by
  cases step with
  | call request => exact h.make (hnames request rfl)
  | slice budget => exact h.bind (h.drain budget) fun _ => h.pure _
  | delayedSlice budget => exact h.bind (h.traceDelayed budget) fun _ => h.pure _

/-- A command is a step, or it changes the marker and nothing else. -/
theorem command (hreset : good (Command.reset.make g))
    (hrecolor : ∀ color, good ((Command.recolor color).make g)) {command : Command}
    (hnames : ∀ request, command = .step (.call request) →
      ∀ filter, KeepsOnly names (request.visits g true { compartment := filter })) :
    good (command.make g) := by
  cases command with
  | step step => exact h.step fun request hrequest => hnames request (congrArg _ hrequest)
  | reset => exact hreset
  | recolor color => exact hrecolor color

end Sustained

/-- A delayed thing is taken from the list, and then its children are traced. -/
theorem Inherited.resumeDelayed {g : Graph} {good : ∀ {α : Type}, MarkM ω α → Prop}
    (h : Inherited g (fun _ => True) good) (hrecord : ∀ entry, good (record entry))
    (hpop : good (modifyGet fun s => (s.delayed.pop.1, { s with delayed := s.delayed.pop.2 }))) :
    good (MarkM.resumeDelayed g) := by
  refine h.bind hpop fun next => ?_
  cases next with
  | none => exact h.pure _
  | some thing =>
    exact h.bind (hrecord _) fun _ => h.bind (h.noteScan thing) fun _ =>
      h.bind (h.follow h.pushThing fun _ _ => trivial) fun _ => h.pure _

/-- Whatever filenames are kept, the property passes on to whole slices. -/
abbrev Lasting (g : Graph) (good : ∀ {α : Type}, MarkM ω α → Prop) : Prop :=
  Sustained g (fun _ => True) good

namespace Lasting

variable {g : Graph} {good : ∀ {α : Type}, MarkM ω α → Prop} (h : Lasting g good)

include h

theorem make (call : MarkingCall) : good (make g call) :=
  h.toInherited.make fun _ _ _ => trivial

theorem reply (step : Step) : good (step.reply g) := by
  cases step with
  | call request => exact h.bind (h.make request) fun _ => h.pure _
  | slice budget => exact h.bind (h.drain budget) fun _ => h.pure _
  | delayedSlice budget => exact h.bind (h.traceDelayed budget) fun _ => h.pure _

/-- A whole session has the property, and so have its answers. -/
theorem replies (steps : List Step) : good (Step.replies g steps) := by
  induction steps with
  | nil => exact h.pure _
  | cons step steps ih =>
    exact h.bind (h.reply step) fun _ => h.bind ih fun _ => h.pure _

theorem step (step : Step) : good (step.make g) :=
  Sustained.step h fun _ _ _ _ _ => trivial

theorem steps (steps : List Step) : good (steps.forM (Step.make g)) :=
  h.forM fun step _ => h.step step

end Lasting

end MarkPhase
