import MarkPhase.Proofs.Enumerations
import MarkPhase.Proofs.Growth

/-!
What becomes of labels. A label is set before an edge and goes when a thing has been
reported, so the label at hand after a list of visits, and the edges that were received on the
way, can be read off the list. Whatever a tracer does with the things it is shown makes no
difference to the label it is left with.
-/

namespace MarkPhase

/-- The label at hand once a visit has been made. -/
def Label.after (label : Label) : Visit → Label
  | .setLabel new => new
  | .report _ => .blank
  | _ => label

/-- The edges that are received on the way through the visits, with `label` at hand before. -/
def edgesShown (label : Label) : List Visit → List Edge
  | [] => []
  | visit :: rest =>
    (visit.thing?.map (Edge.mk · label)).toList ++ edgesShown (label.after visit) rest

theorem edgesShown_append (label : Label) (visits others : List Visit) :
    edgesShown label (visits ++ others) =
      edgesShown label visits ++ edgesShown (visits.foldl Label.after label) others := by
  induction visits generalizing label with
  | nil => rfl
  | cons visit visits ih =>
    rw [List.cons_append, edgesShown, edgesShown, ih, List.append_assoc]
    rfl

/-- The context with another label. -/
def Context.labelled (context : Context) (label : Label) : Context :=
  { context with label }

@[simp]
theorem Context.labelled_label (context : Context) (label : Label) :
    (context.labelled label).label = label :=
  rfl

@[simp]
theorem Context.labelled_labelled (context : Context) (label other : Label) :
    (context.labelled label).labelled other = context.labelled other :=
  rfl

theorem Context.eq_labelled {context other : Context} {label : Label}
    (hcompartment : other.compartment = context.compartment) (hlabel : other.label = label) :
    other = context.labelled label := by
  cases other
  cases hcompartment
  cases hlabel
  rfl

/-! Tracers that receive every edge. -/

/-- The visits after which a tracer stops: a broken one, or the report of a thing that is not
accepted. -/
def Visit.Stops (g : Graph) (fault : Fault) : Visit → Prop
  | .report thing => g.objection? thing = some fault
  | .broken given => given = fault
  | _ => False

namespace Tracer

/-- The tracer once it was shown the visits. -/
def shown (s : Tracer) (visits : List Visit) : Tracer where
  context := s.context.labelled (visits.foldl Label.after s.context.label)
  edges := (s.edges.toList ++ edgesShown s.context.label visits).toArray
  entered := s.entered

theorem shown_nil (s : Tracer) : s.shown [] = s := by
  simp [shown, Context.labelled, edgesShown]

theorem shown_cons (s : Tracer) (visit : Visit) (visits : List Visit) :
    s.shown (visit :: visits) = (s.shown [visit]).shown visits := by
  simp [shown, edgesShown]

end Tracer

namespace TraceM

variable {g : Graph}

theorem yields_visit (visit : Visit) (s : Tracer) :
    Yields (TraceM.visit g visit) s (fun _ t => t = s.shown [visit])
      fun fault _ => visit.Stops g fault := by
  cases visit with
  | setLabel label => simp [TraceM.visit, setLabel, Tracer.shown, edgesShown, Visit.thing?,
      Label.after, Context.labelled]
  | report thing =>
    cases hthing : g.objection? thing with
    | some fault => simp [TraceM.visit, hthing, Visit.Stops]
    | none =>
      have hpush : s.edges.push (Edge.mk thing s.context.label) =
          (s.edges.toList ++ [Edge.mk thing s.context.label]).toArray := Array.ext' (by simp)
      simp [TraceM.visit, hthing, receive, setLabel, Tracer.shown, edgesShown, Visit.thing?,
        Label.after, Context.labelled, hpush]
  | keepFilename name => simp [TraceM.visit, Tracer.shown, edgesShown, Visit.thing?, Label.after,
      Context.labelled]
  | broken fault => simp [TraceM.visit, Visit.Stops]

/-- A tracer receives the edges that it is shown, unless one of the visits stops it. -/
theorem yields_forM_visit (visits : List Visit) (s : Tracer) :
    Yields (visits.forM (TraceM.visit g)) s (fun _ t => t = s.shown visits)
      fun fault _ => ∃ visit ∈ visits, visit.Stops g fault := by
  induction visits generalizing s with
  | nil => exact (s.shown_nil).symm
  | cons visit visits ih =>
    change Yields (TraceM.visit g visit >>= fun _ => visits.forM (TraceM.visit g)) s _ _
    rw [yields_bind]
    refine (yields_visit visit s).mono ?_ fun fault _ hstop => ⟨visit, List.mem_cons_self .., hstop⟩
    intro _ t ht
    subst ht
    rw [s.shown_cons visit visits]
    refine (ih (s.shown [visit])).mono (fun _ _ => id) fun fault _ hstop => ?_
    obtain ⟨later, hmem, hlater⟩ := hstop
    exact ⟨later, List.mem_cons_of_mem _ hmem, hlater⟩

/-! Tracers that explore. -/

/-- The label at hand once a task is done. -/
def Task.labelAfter (label : Label) : Task → Label
  | .visit made => label.after made
  | .leave => .blank

theorem foldl_labelAfter_map (visits : List Visit) (label : Label) :
    (visits.map Task.visit).foldl Task.labelAfter label = visits.foldl Label.after label := by
  rw [List.foldl_map]
  simp only [Task.labelAfter]

private theorem yields_explored_context (thing : Thing) (s : Tracer) :
    Yields (explored g thing) s (fun _ t => t.context = s.context) fun _ _ => True := by
  rw [explored, yields_bind, receive, yields_modify]
  refine yields_ite (fun _ => trivial) fun _ => ?_
  change Yields (enter thing >>= _) _ _ _
  rw [yields_bind, enter, yields_modifyGet]
  split <;> split <;> simp

/-- An exploration ends with the label that its tasks leave. -/
private def Leaves (g : Graph) (entries : Nat) (tasks : List Task) : Prop :=
  ∀ s, Yields (explore g entries tasks) s
    (fun _ t => t.context = s.context.labelled (tasks.foldl Task.labelAfter s.context.label))
    fun _ _ => True

/-- What is true of explorations that may enter fewer things is true of the next ones. -/
private theorem leaves_of {entries : Nat}
    (hless : ∀ less, entries = less + 1 → ∀ tasks, Leaves g less tasks) (tasks : List Task) :
    Leaves g entries tasks := by
  induction tasks with
  | nil =>
    intro s
    rw [explore]
    exact rfl
  | cons task rest ih =>
    intro s
    cases task with
    | leave =>
      rw [explore, yields_bind, setLabel, yields_modify]
      exact ih { s with context := s.context.labelled .blank }
    | visit first =>
      by_cases hreport : ∃ thing, first = .report thing
      · obtain ⟨thing, rfl⟩ := hreport
        rw [explore]
        cases g.objection? thing with
        | some fault => trivial
        | none =>
          change Yields (explored g thing >>= _) s _ _
          rw [yields_bind]
          refine (yields_explored_context thing s).imp fun below t ht => ?_
          rw [← ht]
          cases below with
          | nil =>
            change Yields (setLabel .blank >>= fun _ => explore g entries rest) t _ _
            rw [yields_bind, setLabel, yields_modify]
            exact ih { t with context := t.context.labelled .blank }
          | cons one others =>
            cases entries with
            | zero => trivial
            | succ less =>
              -- whatever is below, the label goes when the thing is left
              refine (hless less rfl _ t).imp fun _ u hu => ?_
              rw [hu, List.foldl_append]
              rfl
      · have hother : ∀ thing, first ≠ .report thing := fun thing heq => hreport ⟨thing, heq⟩
        rw [explore, yields_bind]
        · refine (yields_visit first s).mono (fun _ t ht => ?_) fun _ _ _ => trivial
          subst ht
          exact ih (s.shown [first])
        · exact hother

theorem yields_explore (entries : Nat) (tasks : List Task) (s : Tracer) :
    Yields (explore g entries tasks) s
      (fun _ t => t.context = s.context.labelled (tasks.foldl Task.labelAfter s.context.label))
      fun _ _ => True := by
  induction entries generalizing tasks s with
  | zero => exact leaves_of (fun less hless => absurd hless (Nat.succ_ne_zero less).symm) tasks s
  | succ entries ih =>
    refine leaves_of (fun less hless tasks s => ?_) tasks s
    obtain rfl := Nat.succ.inj hless
    exact ih tasks s

end TraceM

/-! Markers. -/

namespace MarkM

variable {ω : Type} {g : Graph}

/-- Whatever pushing a thing does to the label, no label is at hand after the report. -/
theorem yields_follow_label (push : Thing → MarkM ω Unit) (visits : List Visit) (s : Marking ω) :
    Yields (follow g push visits) s
      (fun _ t => t.context.label = visits.foldl Label.after s.context.label)
      fun _ _ => True := by
  induction visits generalizing s with
  | nil => exact rfl
  | cons made visits ih =>
    change Yields (MarkM.visit g push made >>= fun _ => follow g push visits) s _ _
    have hone : Yields (MarkM.visit g push made) s
        (fun _ t => t.context.label = s.context.label.after made) fun _ _ => True := by
      cases made with
      | setLabel label => exact rfl
      | keepFilename name => exact rfl
      | broken fault => trivial
      | report thing =>
        rw [MarkM.visit]
        cases g.objection? thing with
        | some fault => trivial
        | none =>
          change Yields (push thing >>= fun _ => setLabel .blank) s _ _
          exact yields_after fun _ _ => rfl
    rw [yields_bind]
    refine hone.imp fun _ t ht => ?_
    rw [List.foldl_cons, ← ht]
    exact ih t

end MarkM

end MarkPhase
