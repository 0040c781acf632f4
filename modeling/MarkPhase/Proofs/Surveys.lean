import MarkPhase.Heap
import MarkPhase.Proofs.Enumerations
import MarkPhase.Proofs.Frames
import MarkPhase.Tracing

/-!
Generic tracers at work on a heap. The enumerations are shared with the marker, and one of
their visits keeps a filename; whoever makes that visit on a heap marks the name's entry.
A generic tracer is never shown this visit, so it leaves the ledger of the heap as it is
and does what it does without a heap.
-/

namespace MarkPhase

/-- A generic tracer at work on a heap, with the ledger of the heap. -/
structure Survey extends Ledger, Tracer

/-- The ledger is the same as before. -/
def Survey.SameLedger (s t : Survey) : Prop :=
  t.toLedger = s.toLedger

instance : IsPreorder Survey Survey.SameLedger where
  refl _ := rfl
  trans _ _ _ hfirst hsecond := Eq.trans hsecond hfirst

abbrev SurveyM := EStateM Fault Survey

namespace SurveyM

variable {α β : Type}

/-- A move of the tracer alone. -/
def apart (m : TraceM α) : SurveyM α := fun s =>
  match m s.toTracer with
  | .ok a t => .ok a { s with toTracer := t }
  | .error fault t => .error fault { s with toTracer := t }

/-- Makes a visit on the heap, where keeping a filename marks its entry. -/
def visit (g : Graph) : Visit → SurveyM Unit
  | .keepFilename name => modify fun s => { s with filenames := s.filenames.mark name }
  | other => apart (TraceM.visit g other)

/-- Makes the visits of a call on the heap. -/
def make (g : Graph) (call : MarkingCall) : SurveyM Unit := do
  (call.visits g false (← get).context).forM (visit g)

open TraceM (Task)

/-- Explores on the heap. -/
def explore (g : Graph) (entries : Nat) (tasks : List Task) : SurveyM Unit :=
  match tasks with
  | [] => pure ()
  | .leave :: rest => do
    apart (TraceM.setLabel .blank)
    explore g entries rest
  | .visit (.report thing) :: rest => do
    if let some fault := g.objection? thing then
      throw fault
    match ← apart (TraceM.explored g thing) with
    | [] =>
      apart (TraceM.setLabel .blank)
      explore g entries rest
    | below =>
      match entries with
      | 0 => throw .endless
      | entries + 1 => explore g entries (below.map .visit ++ .leave :: rest)
  | .visit other :: rest => do
    visit g other
    explore g entries rest
termination_by (entries, tasks.length)

theorem apart_bind (m : TraceM α) (f : α → TraceM β) :
    apart (m >>= f) = apart m >>= fun a => apart (f a) := by
  funext s
  change apart (EStateM.bind m f) s = EStateM.bind (apart m) (fun a => apart (f a)) s
  simp only [apart, EStateM.bind]
  cases m s.toTracer <;> rfl

theorem yields_apart {m : TraceM α} {s : Survey} {post : α → Survey → Prop}
    {faults : Fault → Survey → Prop} : Yields (apart m) s post faults ↔
      Yields m s.toTracer (fun a t => post a { s with toTracer := t })
        fun fault t => faults fault { s with toTracer := t } := by
  unfold Yields apart
  cases m s.toTracer <;> rfl

theorem respects_apart (m : TraceM α) : Respects Survey.SameLedger (apart m) := by
  intro s
  rw [yields_apart]
  unfold Yields
  cases m s.toTracer <;> rfl

variable {g : Graph}

theorem visit_eq {one : Visit} (h : ∀ name, one ≠ .keepFilename name) :
    visit g one = apart (TraceM.visit g one) := by
  cases one with
  | keepFilename name => exact absurd rfl (h name)
  | _ => rfl

theorem forM_visit {visits : List Visit} (h : Quiet visits) :
    visits.forM (visit g) = apart (visits.forM (TraceM.visit g)) := by
  induction visits with
  | nil => rfl
  | cons first rest ih =>
    have hfirst : visit g first = apart (TraceM.visit g first) := visit_eq <| by
      rintro name rfl
      exact h name (List.mem_cons_self ..)
    have hrest : Quiet rest := fun name hmem => h name (List.mem_cons_of_mem _ hmem)
    change (visit g first >>= fun _ => rest.forM (visit g)) =
      apart (TraceM.visit g first >>= fun _ => rest.forM (TraceM.visit g))
    rw [apart_bind, hfirst, ih hrest]

/-- The visits of a call are made as without a heap. -/
theorem make_eq (call : MarkingCall) : make g call = apart (TraceM.make g call) := by
  funext s
  have hquiet : Quiet (call.visits g false s.context) :=
    .visits (fun hmarker => absurd hmarker Bool.false_ne_true) s.context
  exact congrFun (forM_visit hquiet) s

/-! Explorations. -/

/-- What is below a thing are the children that a generic tracer is shown. -/
theorem yields_explored (thing : Thing) (s : Tracer) :
    Yields (TraceM.explored g thing) s (fun below _ => Quiet below) fun _ _ => True := by
  have henter : ∀ t : Tracer, Yields (TraceM.enter thing >>= fun entered =>
      if entered = true then pure (childVisits g false thing) else pure []) t
      (fun below _ => Quiet below) fun _ _ => True := by
    intro t
    rw [yields_bind, TraceM.enter, yields_modifyGet]
    split
    · exact Enumeration.nil.quiet
    · exact Quiet.childVisits nofun
  rw [TraceM.explored, yields_bind, TraceM.receive, yields_modify]
  exact yields_ite (fun _ => trivial) fun _ => henter _

/-- What comes after may rely on what is known of the answer. -/
theorem apart_bind_told {m : TraceM α} {told : α → Prop} {f : α → TraceM β} {f' : α → SurveyM β}
    (hm : ∀ s, Yields m s (fun a _ => told a) fun _ _ => True)
    (hf : ∀ a, told a → f' a = apart (f a)) : apart m >>= f' = apart (m >>= f) := by
  rw [apart_bind]
  funext s
  change EStateM.bind (apart m) f' s = EStateM.bind (apart m) (fun a => apart (f a)) s
  simp only [apart, EStateM.bind]
  cases hend : m s.toTracer with
  | ok a t => exact congrFun (hf a ((hm _).of_ok hend)) _
  | error fault t => rfl

/-- No task asks for a name to be kept. -/
def QuietTasks (tasks : List Task) : Prop :=
  ∀ name, .visit (.keepFilename name) ∉ tasks

theorem QuietTasks.append {visits : List Visit} {rest : List Task} (h : Quiet visits)
    (hrest : QuietTasks rest) : QuietTasks (visits.map .visit ++ rest) := by
  intro name hmem
  rcases List.mem_append.mp hmem with hvisit | htask
  · obtain ⟨visit, hvisit, heq⟩ := List.mem_map.mp hvisit
    obtain rfl := Task.visit.inj heq
    exact h name hvisit
  · exact hrest name htask

/-- What is true of explorations that may enter fewer things is true of the next ones. -/
theorem explore_eq_of {entries : Nat}
    (hless : ∀ less, entries = less + 1 → ∀ tasks, QuietTasks tasks →
      explore g less tasks = apart (TraceM.explore g less tasks)) {tasks : List Task}
    (hquiet : QuietTasks tasks) :
    explore g entries tasks = apart (TraceM.explore g entries tasks) := by
  induction tasks with
  | nil =>
    rw [explore, TraceM.explore]
    rfl
  | cons task rest ih =>
    have hquietRest : QuietTasks rest := fun name hmem => hquiet name (List.mem_cons_of_mem _ hmem)
    have hrest := ih hquietRest
    cases task with
    | leave => rw [explore, TraceM.explore, apart_bind, hrest]
    | visit first =>
      have hfirst : ∀ name, first ≠ .keepFilename name := by
        rintro name rfl
        exact hquiet name (List.mem_cons_self ..)
      by_cases hreport : ∃ thing, first = .report thing
      · obtain ⟨thing, rfl⟩ := hreport
        rw [explore, TraceM.explore]
        cases g.objection? thing with
        | some fault => rfl
        | none =>
          refine apart_bind_told (yields_explored thing) fun below hbelow => ?_
          cases below with
          | nil => exact hrest ▸ (apart_bind _ _).symm
          | cons one others =>
            cases entries with
            | zero => rfl
            | succ less =>
              refine hless less rfl _ (.append hbelow fun name hmem => hquietRest name ?_)
              exact (List.mem_cons.mp hmem).resolve_left (by simp)
      · have hother : ∀ thing, first ≠ .report thing := fun thing heq => hreport ⟨thing, heq⟩
        rw [explore, TraceM.explore, apart_bind, visit_eq hfirst, hrest]
        · exact hother
        · exact hother

/-- An exploration that sets out without a name to keep does what it does without a heap. -/
theorem explore_eq (entries : Nat) {tasks : List Task} (hquiet : QuietTasks tasks) :
    explore g entries tasks = apart (TraceM.explore g entries tasks) := by
  induction entries generalizing tasks with
  | zero =>
    exact explore_eq_of (fun less hless => absurd hless (Nat.succ_ne_zero less).symm) hquiet
  | succ entries ih =>
    refine explore_eq_of (fun less hless tasks hquiet => ?_) hquiet
    obtain rfl := Nat.succ.inj hless
    exact ih hquiet

/-! Traversals of all kinds. -/

/-- What is asked of a generic tracer. -/
inductive Traversal
  /-- A call of which every edge is received. -/
  | edges (call : MarkingCall)
  /-- A call of which every edge is explored. -/
  | exploring (call : MarkingCall)
  /-- One thing and what is below it. -/
  | below (thing : Thing)

namespace Traversal

/-- Makes a traversal without a heap. -/
def alone (g : Graph) : Traversal → TraceM Unit
  | .edges call => TraceM.make g call
  | .exploring call => TraceM.makeExploring g call
  | .below thing => TraceM.receiveExploring g thing

/-- Makes a traversal on the heap. -/
def make (g : Graph) : Traversal → SurveyM Unit
  | .edges call => SurveyM.make g call
  | .exploring call => do
    let visits := call.visits g false (← get).context
    explore g g.thingCount (visits.map .visit)
  | .below thing => do
    let below ← apart (TraceM.explored g thing)
    explore g g.thingCount (below.map .visit)

/-- On a heap a generic tracer does what it does without one. -/
theorem make_eq (traversal : Traversal) : traversal.make g = apart (traversal.alone g) := by
  have hexplore : ∀ {visits : List Visit}, Quiet visits →
      explore g g.thingCount (visits.map .visit) =
        apart (TraceM.explore g g.thingCount (visits.map .visit)) := by
    intro visits hquiet
    refine explore_eq _ fun name hmem => ?_
    exact QuietTasks.append hquiet (fun _ => List.not_mem_nil) name (by simpa using hmem)
  cases traversal with
  | edges call => exact SurveyM.make_eq call
  | exploring call =>
    funext s
    have hquiet : Quiet (call.visits g false s.context) :=
      .visits (fun hmarker => absurd hmarker Bool.false_ne_true) s.context
    exact congrFun (hexplore hquiet) s
  | below thing => exact apart_bind_told (yields_explored thing) fun below hbelow => hexplore hbelow

end Traversal

/-- However many traversals are made, no thing and no filename is marked or unmarked. -/
theorem respects_traversals (traversals : List Traversal) :
    Respects Survey.SameLedger (traversals.forM (Traversal.make g)) := by
  refine .forM fun traversal _ => ?_
  rw [traversal.make_eq]
  exact respects_apart _

end SurveyM

end MarkPhase
