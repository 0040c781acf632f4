import MarkPhase.Proofs.Confinement
import MarkPhase.Proofs.Loops

/-!
Sessions of a confined marker. Over two heaps that differ only in what the marker may not
look at, a session gets the same answers, scans the same things in the same order and leaves
the same work behind, and it marks the same things. The marks of all other things stay as
they were. The calls of the session may name whatever is there; only what they enumerate
has to lie within the bounds of the marker.
-/

namespace MarkPhase

variable {ω : Type}

namespace MarkingCall

/-- The call asks for the children of none but allowed things. A lineage is walked from shape
to shape whoever owns them, so it is not asked for at all. -/
def Within (g : Graph) (filter : Option CompartmentId) : MarkingCall → Prop
  | .children one => g.Allowed filter one
  | .lineage _ => False
  | _ => True

end MarkingCall

def Step.Within (g : Graph) (filter : Option CompartmentId) : Step → Prop
  | .call request => request.Within g filter
  | _ => True

instance (g : Graph) (filter : Option CompartmentId) : (step : Step) →
    Decidable (step.Within g filter)
  | .call (.children one) => inferInstanceAs (Decidable (g.Allowed filter one))
  | .call (.lineage _) => inferInstanceAs (Decidable False)
  | .call (.thing ..) | .call (.table ..) | .call (.unnamed _) | .call (.root ..)
  | .call (.property ..) | .call (.properties ..) | .call (.value ..) | .call (.values ..)
  | .call (.wrapped ..) | .slice _ | .delayedSlice _ => inferInstanceAs (Decidable True)

namespace MarkM

variable {P : Pairing}

theorem coupled_process {entry : StackEntry} (howner : P.Allows entry.owner) :
    Coupled P.Concurs (fun next => ∀ id, next = some id → P.Allows id.thing)
      (process P.graph entry : MarkM ω (Option ObjectId)) (process P.other entry) := by
  cases entry with
  | object id => exact coupled_scanObject howner
  | values range => exact coupled_scanRange howner
  | typeObject id => exact .seq (hides_scanTypeObject howner) fun _ => .pure nofun
  | xml id => exact .seq (hides_scanXml howner) fun _ => .pure nofun
  | rope id => exact .throw _

theorem coupled_advance {found : Option ObjectId}
    (hfound : ∀ id, found = some id → P.Allows id.thing) :
    Coupled P.Concurs (fun next => ∀ id, next = some id → P.Allows id.thing)
      (advance P.graph found : MarkM ω (Option ObjectId)) (advance P.other found) := by
  cases found with
  | some id => exact coupled_scanObject (hfound id rfl)
  | none =>
    refine .bind coupled_popEntry fun entry hentry => ?_
    cases entry with
    | none => exact .pure nofun
    | some entry => exact coupled_process (hentry entry rfl)

theorem hides_drainStack (units : Nat) {found : Option ObjectId}
    (hfound : ∀ id, found = some id → P.Allows id.thing) (budget : Budget) :
    P.Hides (drainStack P.graph units found budget : MarkM ω (Bool × Budget))
      (drainStack P.other units found budget) := by
  induction units generalizing found budget with
  | zero => exact .throw .endless
  | succ units ih =>
    have hcut : P.Hides (do
        record (.overBudget (← get).stack.size)
        return (false, budget.step 1) : MarkM ω (Bool × Budget)) (do
        record (.overBudget (← get).stack.size)
        return (false, budget.step 1)) := by
      refine .get fun s u h => ?_
      rw [h.stack]
      exact .seq (hides_record _) fun _ => .pure trivial
    refine .get fun s u h => ?_
    rw [h.stack]
    refine .ite (fun _ => .pure trivial) fun _ => .bind (coupled_advance hfound) fun next hnext =>
      .ite (fun _ => ?_) fun _ => ih hnext _
    cases next with
    | none => exact hcut
    | some id => exact .seq (hides_pushEntry (hnext id rfl)) fun _ => hcut

/-- What is taken from the delayed list may be looked at. -/
theorem coupled_popDelayed :
    Coupled P.Concurs (fun next => ∀ thing, next = some thing → P.Allows thing)
      (modifyGet fun s => (s.delayed.pop.1, { s with delayed := s.delayed.pop.2 })
        : MarkM ω (Option Thing))
      (modifyGet fun s => (s.delayed.pop.1, { s with delayed := s.delayed.pop.2 })) := by
  refine .modifyGet fun s u h => ?_
  rw [h.marker]
  obtain ⟨hfirst, hrest⟩ := s.delayed.pop_subset
  refine ⟨rfl, fun thing hthing => h.delayed thing (hfirst thing hthing), ?_⟩
  exact { h with
    marker := rfl
    delayed := fun thing hthing => h.delayed thing (hrest thing hthing) }

theorem hides_drainDelayed (units : Nat) (budget : Budget) :
    P.Hides (drainDelayed P.graph units budget : MarkM ω (Bool × Budget))
      (drainDelayed P.other units budget) := by
  induction units generalizing budget with
  | zero => exact .throw .endless
  | succ units ih =>
    refine .bind coupled_popDelayed fun next hnext => ?_
    cases next with
    | none => exact .pure trivial
    | some thing =>
      refine .seq (hides_record _) fun _ => .seq (hides_noteScan thing) fun _ => ?_
      rw [P.childVisits (hnext thing rfl)]
      exact .seq (hides_follow hides_pushThing _) fun _ =>
        .ite (fun _ => .pure trivial) fun _ => ih _

theorem hides_drainRounds (units rounds : Nat) (budget : Budget) :
    P.Hides (drainRounds P.graph units rounds budget : MarkM ω Bool)
      (drainRounds P.other units rounds budget) := by
  induction rounds generalizing budget with
  | zero => exact .throw .endless
  | succ rounds ih =>
    have hnone : ∀ id, (none : Option ObjectId) = some id → P.Allows id.thing := nofun
    refine .seq (hides_drainStack units hnone budget) fun answer =>
      .ite (fun _ => .pure trivial) fun _ => .get fun s u h => ?_
    rw [h.marker]
    refine .ite (fun _ => .seq (hides_record _) fun _ => .pure trivial) fun _ =>
      .seq (hides_record _) fun _ => ?_
    exact .seq (hides_drainDelayed units answer.2) fun rest =>
      .ite (fun _ => .pure trivial) fun _ => ih rest.2

theorem hides_workBound :
    P.Hides (workBound P.graph : MarkM ω Nat) (workBound P.other) := by
  refine .get fun s u h => ?_
  rw [h.marker, P.thingCount]
  exact .pure trivial

theorem hides_drain (budget : Budget) :
    P.Hides (drain P.graph budget : MarkM ω Bool) (drain P.other budget) := by
  refine .seq (.modify fun s u h => ?_) fun _ =>
    .seq hides_workBound fun units => hides_drainRounds units units budget
  exact h.alter (fun marker => { marker with slices := marker.slices + 1 }) rfl rfl rfl

theorem hides_traceDelayed (budget : Budget) :
    P.Hides (traceDelayed P.graph budget : MarkM ω (Bool × Budget)) (traceDelayed P.other budget) :=
  .seq hides_workBound fun units => hides_drainDelayed units budget

theorem hides_make {call : MarkingCall} (hcall : call.Within P.graph P.filter) :
    P.Hides (make P.graph call : MarkM ω Unit) (make P.other call) := by
  refine .get fun s u h => ?_
  have hvisits : call.visits P.other true s.context = call.visits P.graph true s.context := by
    cases call with
    | children one => exact P.childVisits hcall true
    | lineage shape => exact hcall.elim
    | wrapped name held =>
      simp only [MarkingCall.visits, MarkingCall.wrappedVisits, P.indistinct.compartment]
    | _ => rfl
  rw [h.marker, hvisits]
  exact hides_follow hides_pushThing _

end MarkM

namespace Step

variable {P : Pairing}

theorem hides_reply {step : Step} (hstep : step.Within P.graph P.filter) :
    P.Hides (step.reply P.graph : MarkM ω Reply) (step.reply P.other) := by
  cases step with
  | call request => exact .seq (MarkM.hides_make hstep) fun _ => .pure trivial
  | slice budget => exact .seq (MarkM.hides_drain budget) fun _ => .pure trivial
  | delayedSlice budget => exact .seq (MarkM.hides_traceDelayed budget) fun _ => .pure trivial

theorem hides_replies {steps : List Step} (hsteps : ∀ step ∈ steps, step.Within P.graph P.filter) :
    P.Hides (replies P.graph steps : MarkM ω (List Reply)) (replies P.other steps) := by
  induction steps with
  | nil => exact .pure trivial
  | cons step steps ih =>
    refine .seq (hides_reply (hsteps step (List.mem_cons_self ..))) fun _ => .seq ?_ fun _ =>
      .pure trivial
    exact ih fun other hother => hsteps other (List.mem_cons_of_mem _ hother)

end Step

/-- What confined runs from two ledgers have in common in the end: the markers, with their
counts, their pending work and whoever watches them, and the marks of allowed things. No
other mark has changed. -/
structure Marking.Isolated (g : Graph) (filter : Option CompartmentId) (ledger ledger' : Ledger)
    (s u : Marking ω) : Prop where
  marker : u.toMarker = s.toMarker
  marks : ∀ thing, g.Allowed filter thing → u.marks.get thing = s.marks.get thing
  kept : ∀ thing, ¬ g.Allowed filter thing →
    s.marks.get thing = ledger.marks.get thing ∧ u.marks.get thing = ledger'.marks.get thing

namespace Launch

variable {L : Launch ω}

/-- The state before the first step, with another ledger. -/
def startOn (L : Launch ω) (ledger : Ledger) : Marking ω :=
  { L.start with toLedger := ledger }

theorem ready_startOn (L : Launch ω) (ledger : Ledger) : L.Ready (L.startOn ledger) :=
  { L.ready_start ledger.marks with }

/-- A marker that is confined to a compartment learns nothing of what the others hold. Over
two heaps that differ in this only, and in the marks on those things, a session gets the same
answers or stops at the same fault, it leaves the marker in the same state, and no mark is
touched that is none of its business. -/
theorem isolated (L : Launch ω) {history : List Construction} (grounded : Grounded history)
    (hsame : L.graph.Indistinct L.filter (Heap.built history).graph) {ledger ledger' : Ledger}
    (hmarks : ∀ thing, L.graph.Allowed L.filter thing →
      ledger'.marks.get thing = ledger.marks.get thing) {steps : List Step}
    (hwithin : ∀ step ∈ steps, step.Within L.graph L.filter) :
    ((∃ answers s u, Step.replies L.graph steps (L.startOn ledger) = .ok answers s ∧
        Step.replies (Heap.built history).graph steps (L.startOn ledger') = .ok answers u ∧
        s.Isolated L.graph L.filter ledger ledger' u) ∨
      ∃ fault s u, Step.replies L.graph steps (L.startOn ledger) = .error fault s ∧
        Step.replies (Heap.built history).graph steps (L.startOn ledger') = .error fault u ∧
        s.Isolated L.graph L.filter ledger ledger' u) ∧
    (fitsMemory L.configuration.segmentSize entryBytes = true →
      (∀ step ∈ steps, (Command.step step).KnownOn L.graph) →
      ∃ answers s, Step.replies L.graph steps (L.startOn ledger) = .ok answers s) := by
  let P : Pairing := {
    graph := L.graph
    other := (Heap.built history).graph
    filter := L.filter
    marks := ledger.marks
    otherMarks := ledger'.marks
    sound := L.sound
    otherSound := Heap.sound_built grounded
    indistinct := hsame }
  obtain ⟨hitems, htidy, -, hdelayed, -⟩ := L.start_idle
  have hstart : P.Concurs (L.startOn ledger) (L.startOn ledger') := {
    marker := rfl
    filter := rfl
    marks := hmarks
    kept := fun _ _ => ⟨rfl, rfl⟩
    tidy := htidy
    stacked := fun entry hentry => absurd (hitems ▸ hentry) List.not_mem_nil
    delayed := fun thing hthing => by
      have hnone : (L.startOn ledger).delayed.things = [] := congrArg DelayedList.things hdelayed
      rw [hnone] at hthing
      exact absurd hthing List.not_mem_nil }
  have hends : ∀ {s u : Marking ω}, P.Concurs s u → s.Isolated L.graph L.filter ledger ledger' u :=
    fun h => ⟨h.marker, h.marks, h.kept⟩
  refine ⟨?_, fun hfits hknown => (L.ready_startOn ledger).exists_replies hfits hknown⟩
  obtain ⟨answers, s, u, hs, hu, -, h⟩ | ⟨fault, s, u, hs, hu, h⟩ :=
    (Step.hides_replies (P := P) hwithin hstart).cases_ends
  · exact Or.inl ⟨answers, s, u, hs, hu, hends h⟩
  · exact Or.inr ⟨fault, s, u, hs, hu, hends h⟩

/-- Two compartments. An object of the first refers to one of the second, and that one may or
may not refer back into the first. -/
def wary (stackLimit : Nat) (watcher : Option (Watcher ω)) : Launch ω :=
  { sample stackLimit watcher with
    history :=
      [.compartment "home", .compartment "abroad", .baseShape ⟨1⟩ none none none none,
        .shape ⟨1⟩ ⟨0⟩ .void none, .typeObject ⟨1⟩ [] none none none,
        .object ⟨1⟩ ⟨0⟩ ⟨0⟩ 1, .object ⟨2⟩ ⟨0⟩ ⟨0⟩ 1, .object ⟨1⟩ ⟨0⟩ ⟨0⟩ 0,
        .slot ⟨0⟩ 0 (.object ⟨1⟩), .slot ⟨1⟩ 0 .null]
    grounded := by decide +kernel
    context := { compartment := some ⟨1⟩ } }

theorem isolated_sample :
    let L : Launch Unit := wary 1 (some ⟨.objectless, ()⟩)
    let history := L.history ++ [.slot ⟨1⟩ 0 (.object ⟨2⟩)]
    let ledger' : Ledger := { marks := ThingTable.set {} ⟨.object, 1⟩ (.marked .gray) }
    let steps : List Step := [.call (.root "top" (some ⟨.object, 0⟩)),
      .call (.children ⟨.object, 0⟩), .slice (.work 1), .call (.unnamed ⟨.object, 1⟩),
      .delayedSlice (.work 1), .slice .unlimited]
    Grounded history ∧ L.graph.Indistinct L.filter (Heap.built history).graph ∧
    (∀ thing, L.graph.Allowed L.filter thing →
      ledger'.marks.get thing = L.ledger.marks.get thing) ∧
    (∀ step ∈ steps, step.Within L.graph L.filter) ∧
    ((∃ answers s u, Step.replies L.graph steps (L.startOn L.ledger) = .ok answers s ∧
        Step.replies (Heap.built history).graph steps (L.startOn ledger') = .ok answers u ∧
        s.Isolated L.graph L.filter L.ledger ledger' u) ∨
      ∃ fault s u, Step.replies L.graph steps (L.startOn L.ledger) = .error fault s ∧
        Step.replies (Heap.built history).graph steps (L.startOn ledger') = .error fault u ∧
        s.Isolated L.graph L.filter L.ledger ledger' u) ∧
    (fitsMemory L.configuration.segmentSize entryBytes = true →
      (∀ step ∈ steps, (Command.step step).KnownOn L.graph) →
      ∃ answers s, Step.replies L.graph steps (L.startOn L.ledger) = .ok answers s) := by
  intro L history ledger' steps
  have grounded : Grounded history := by decide +kernel
  have hsame : L.graph.Indistinct L.filter (Heap.built history).graph := by decide +kernel
  have hmarks : ∀ thing, L.graph.Allowed L.filter thing →
      ledger'.marks.get thing = L.ledger.marks.get thing := by
    intro thing hallowed
    have hne : (⟨.object, 1⟩ : Thing) ≠ thing := by
      rintro rfl
      exact absurd hallowed (by decide +kernel)
    change (ThingTable.set {} ⟨.object, 1⟩ (Shade.marked .gray)).get thing = _
    rw [ThingTable.get_set, if_neg hne]
    rfl
  have hwithin : ∀ step ∈ steps, step.Within L.graph L.filter := by decide +kernel
  exact ⟨grounded, hsame, hmarks, hwithin, L.isolated grounded hsame hmarks hwithin⟩

end Launch

end MarkPhase
