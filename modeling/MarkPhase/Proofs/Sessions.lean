import MarkPhase.Proofs.Building
import MarkPhase.Proofs.Drains
import MarkPhase.Proofs.Moves

/-!
Sessions. A marker starts without work over a heap on which nothing is marked. After
that it is asked, in any order, to make marking calls, to work for a slice and to trace
delayed things. Every state between two steps of a session is tracked by an outline
without anything in hand, so what all outlines keep holds of the state.
-/

namespace MarkPhase

/-- What a marking starts from: a heap that a history of calls has built, with nothing
marked on it, and a new marker with a context, a colour and perhaps a watcher. -/
structure Launch (ω : Type) where
  history : List Construction
  grounded : Grounded history
  ledger : Ledger
  unmarked : ∀ thing, ledger.marks.isMarked thing = false
  configuration : Configuration
  marker : Marker ω
  made : Marker.make configuration = .ok marker
  context : Context
  color : Color
  watcher : Option (Watcher ω)

/-- Refuses every range of values and nothing else. -/
def Observer.rangeless {ω : Type} : Observer ω where
  onScan _ memory := memory
  refuses entry memory := (entry.isValues, memory)

/-- Refuses every object and nothing else. -/
def Observer.objectless {ω : Type} : Observer ω where
  onScan _ memory := memory
  refuses entry memory :=
    (match entry with
      | .object _ => true
      | _ => false, memory)

/-- What a marker may be asked to do between two looks at its state. -/
inductive Step
  | call (request : MarkingCall)
  | slice (budget : Budget)
  | delayedSlice (budget : Budget)
deriving DecidableEq

namespace MarkingCall

/-- The things that a call reports to a marker confined by `filter`. -/
def roots (g : Graph) (filter : Option CompartmentId) (call : MarkingCall) : List Thing :=
  (call.visits g true { compartment := filter }).filterMap Visit.thing?

/-- A call fails at a thing that is not on the heap and where an enumeration breaks off. -/
def Fails (g : Graph) (filter : Option CompartmentId) (call : MarkingCall) (fault : Fault) : Prop :=
  (∃ thing ∈ call.roots g filter, g.objection? thing = some fault) ∨
    .broken fault ∈ call.visits g true { compartment := filter }

end MarkingCall

namespace Step

variable {ω : Type}

def make (g : Graph) : Step → MarkM ω Unit
  | .call request => MarkM.make g request
  | .slice budget => do
    let _ ← MarkM.drain g budget
    return ()
  | .delayedSlice budget => do
    let _ ← MarkM.traceDelayed g budget
    return ()

/-- A step with the number of its units of work. A call makes none. -/
def count (g : Graph) : Step → MarkM ω Nat
  | .call request => do
    MarkM.make g request
    return 0
  | .slice budget => do
    let (_, units) ← MarkM.countDrain g budget
    return units
  | .delayedSlice budget => do
    let (_, units) ← MarkM.countTrace g budget
    return units

/-- Steps made one after the other, with the number of all their units. -/
def countAll (g : Graph) : List Step → MarkM ω Nat
  | [] => return 0
  | step :: steps => do
    let first ← step.count g
    let others ← countAll g steps
    return first + others

theorem map_count (g : Graph) (step : Step) :
    (fun _ => ()) <$> step.count g = (step.make g : MarkM ω Unit) := by
  cases step with
  | call request => simp [count, make]
  | slice budget => simp [count, make, ← MarkM.fst_countDrain]
  | delayedSlice budget => simp [count, make, ← MarkM.fst_countTrace]

theorem map_countAll (g : Graph) (steps : List Step) :
    (fun _ => ()) <$> countAll g steps = (steps.forM (make g) : MarkM ω Unit) := by
  induction steps with
  | nil => rfl
  | cons step steps ih =>
    change _ = step.make g >>= fun _ => steps.forM (make g)
    rw [← ih, ← map_count, bind_map_left]
    simp [countAll]

/-- The roots that a step adds. -/
def roots (g : Graph) (filter : Option CompartmentId) : Step → List Thing
  | .call request => request.roots g filter
  | _ => []

def Fails (g : Graph) (filter : Option CompartmentId) (fault : Fault) : Step → Prop
  | .call request => request.Fails g filter fault
  | _ => False

end Step

/-- The things that a marker confined by `filter` may reach from the roots. -/
inductive Graph.Reachable (g : Graph) (filter : Option CompartmentId) (roots : List Thing) :
    Thing → Prop
  | root {thing : Thing} (hroot : thing ∈ roots) (hallowed : g.Allowed filter thing) :
      Reachable g filter roots thing
  | child {parent child : Thing} (hparent : Reachable g filter roots parent)
      (hchild : g.Child parent child) (hallowed : g.Allowed filter child) :
      Reachable g filter roots child

namespace Graph

variable {g : Graph} {filter : Option CompartmentId} {roots more : List Thing} {thing : Thing}

theorem Reachable.allowed (h : g.Reachable filter roots thing) : g.Allowed filter thing := by
  cases h with
  | root _ hallowed => exact hallowed
  | child _ _ hallowed => exact hallowed

theorem Reachable.mono (h : g.Reachable filter roots thing) (hroots : ∀ root ∈ roots, root ∈ more) :
    g.Reachable filter more thing := by
  induction h with
  | root hroot hallowed => exact .root (hroots _ hroot) hallowed
  | child _ hchild hallowed ih => exact ih.child hchild hallowed

end Graph

variable {ω : Type}

namespace Marker

variable {configuration : Configuration} {marker : Marker ω}

/-- What a new marker is like. -/
theorem eq_of_make (hmade : Marker.make configuration = .ok marker) :
    0 < configuration.segmentSize ∧
    marker = { stack := {
      itemBytes := entryBytes
      segmentSize := configuration.segmentSize
      maxCached := configuration.maxCached
      maxSize := SegmentedStack.boundOf configuration.stackLimit } } := by
  unfold Marker.make SegmentedStack.make at hmade
  by_cases hzero : configuration.segmentSize = 0
  · rw [if_pos hzero] at hmade
    cases hmade
  · rw [if_neg hzero] at hmade
    exact ⟨Nat.pos_of_ne_zero hzero, (Except.ok.inj hmade).symm⟩

/-- A new marker has no work and has delayed nothing. -/
theorem idle_of_make (hmade : Marker.make configuration = .ok marker) :
    marker.stack.items = [] ∧ marker.stack.Tidy ∧
    marker.stack.maxSize = SegmentedStack.boundOf configuration.stackLimit ∧
    marker.delayed = {} ∧ marker.delays = 0 := by
  obtain ⟨hpos, hmarker⟩ := eq_of_make hmade
  have hstack : (SegmentedStack.make entryBytes configuration.segmentSize
      configuration.maxCached configuration.stackLimit) = .ok marker.stack := by
    rw [SegmentedStack.make, if_neg (Nat.pos_iff_ne_zero.mp hpos), hmarker]
  obtain ⟨hitems, htidy⟩ := SegmentedStack.items_make hstack
  rw [hmarker] at hitems htidy ⊢
  exact ⟨hitems, htidy, rfl, rfl, rfl⟩

end Marker

namespace Setting

/-- A marking over a sound graph. Its territory are the things that may be reached from the
roots within the filter of the marker. -/
def reaching {g : Graph} (sound : g.Sound) (ledger : Ledger) (marker : Marker ω)
    (roots : List Thing) (calm : Prop)
    (hgentle : calm → ∀ watcher, marker.watcher = some watcher → ∀ entry memory,
      (watcher.observer.refuses entry memory).1 = false) : Setting ω where
  graph := g
  sound := sound
  filter := marker.context.compartment
  home := g.Reachable marker.context.compartment roots
  home_allowed _ hthing := hthing.allowed
  home_child _ _ hparent hchild hallowed := hparent.child hchild hallowed
  roomy := fitsMemory marker.stack.segmentSize marker.stack.itemBytes = true
  calm := calm
  start := { toLedger := ledger, toMarker := marker }
  start_filter := rfl
  roomy_iff := Iff.rfl
  gentle := hgentle

variable {S : Setting ω} {o : Outline}

/-- A marking begins without work. -/
theorem tracks_start (hitems : S.start.stack.items = []) (htidy : S.start.stack.Tidy)
    (hdelayed : S.start.delayed = {})
    (hbounded : S.calm → (Outline.start S.start.marks).load S.graph < S.start.stack.maxSize) :
    S.Tracks [] [] (Outline.start S.start.marks) S.start where
  marks := rfl
  stack := htidy
  ropes := ⟨[], hitems, fun _ => List.not_mem_nil⟩
  work := by rw [Marker.stacked, hitems]; rfl
  delayedTidy := hdelayed ▸ DelayedList.tidy_empty
  delayed := by rw [hdelayed]; rfl
  delays := rfl
  journal := (List.append_nil _).symm
  watcher := by
    change S.start.watcher = S.start.watcher.map id
    rw [Option.map_id_fun, id]
  filter := S.start_filter
  segmentSize := rfl
  itemBytes := rfl
  roomy hne := absurd hitems hne
  bounded := hbounded

/-- Where nothing is left to do, what may be reached from the roots is marked. -/
theorem marked_of_idle (hwords : S.graph.WordSized) (hbalanced : o.Balanced S.toTerrain)
    {roots : List Thing} (hreached : S.Reached roots o) (hwork : o.work = 0)
    (hdelayed : o.delayed = []) {thing : Thing} (h : S.graph.Reachable S.filter roots thing) :
    o.Marked thing := by
  induction h with
  | root hroot hallowed => exact hreached _ hroot hallowed
  | child _ hchild hallowed ih => exact hbalanced.closed hwords hwork hdelayed ih hchild hallowed

end Setting

namespace Launch

variable (L : Launch ω)

def graph : Graph :=
  (Heap.built L.history).graph

def filter : Option CompartmentId :=
  L.context.compartment

/-- The state before the first step. -/
def start : Marking ω :=
  { toLedger := L.ledger
    toMarker := { L.marker with context := L.context, color := L.color, watcher := L.watcher } }

/-- The steps, made one after the other, lead to the state `s`. -/
def Leads (steps : List Step) (s : Marking ω) : Prop :=
  steps.forM (Step.make L.graph) L.start = .ok () s

def roots (steps : List Step) : List Thing :=
  steps.flatMap (Step.roots L.graph L.filter)

/-- Nothing is ever refused by the observer. -/
def Gentle : Prop :=
  ∀ watcher, L.watcher = some watcher → ∀ entry memory,
    (watcher.observer.refuses entry memory).1 = false

/-- The territory of a session are the things that may be reached from its roots. -/
def setting (roots : List Thing) (calm : Prop) (hgentle : calm → L.Gentle) : Setting ω :=
  .reaching (Heap.sound_built L.grounded) L.ledger L.start.toMarker roots calm hgentle

/-- A session of which nothing is assumed. -/
abbrev scene (steps : List Step) : Setting ω :=
  L.setting (L.roots steps) False False.elim

/-- A session in which nothing is ever refused. -/
abbrev calmScene (steps : List Step) (hgentle : L.Gentle) : Setting ω :=
  L.setting (L.roots steps) True fun _ => hgentle

variable {L}

theorem marker_eq : 0 < L.configuration.segmentSize ∧
    L.marker = { stack := {
      itemBytes := entryBytes
      segmentSize := L.configuration.segmentSize
      maxCached := L.configuration.maxCached
      maxSize := SegmentedStack.boundOf L.configuration.stackLimit } } :=
  Marker.eq_of_make L.made

theorem start_idle : L.start.stack.items = [] ∧ L.start.stack.Tidy ∧
    L.start.stack.maxSize = SegmentedStack.boundOf L.configuration.stackLimit ∧
    L.start.delayed = {} ∧ L.start.delays = 0 := by
  have hidle := Marker.idle_of_make L.made
  exact hidle

theorem fitsMemory_marker : fitsMemory L.marker.stack.segmentSize L.marker.stack.itemBytes =
    fitsMemory L.configuration.segmentSize entryBytes := by
  rw [L.marker_eq.2]

theorem tracks_start {roots : List Thing} {calm : Prop} {hgentle : calm → L.Gentle}
    (hbounded : calm → (Outline.start L.ledger.marks).load L.graph < L.start.stack.maxSize) :
    (L.setting roots calm hgentle).Tracks [] [] (Outline.start L.ledger.marks) L.start := by
  obtain ⟨hitems, htidy, -, hdelayed, -⟩ := L.start_idle
  exact Setting.tracks_start (S := L.setting roots calm hgentle) hitems htidy hdelayed hbounded

end Launch

/-! Steps. -/

namespace Setting

variable {S : Setting ω} {o : Outline} {s : Marking ω}

/-- The load pays for the units of a step. -/
theorem Tracks.yields_count {step : Step} (h : S.Tracks [] [] o s)
    (hguarded : o.Guarded S.toTerrain)
    (hroots : ∀ thing ∈ step.roots S.graph S.filter,
      S.graph.Allowed S.filter thing → S.home thing) :
    Yields (step.count S.graph) s
      (fun units => S.Lands o [] [] fun o' => S.Reached (step.roots S.graph S.filter) o' ∧
        o'.load S.graph + units ≤ o.load S.graph)
      (fun fault t => S.Overflows fault t ∨ step.Fails S.graph S.filter fault) := by
  cases step with
  | call request =>
    have hvisits : request.visits S.graph true s.context =
        request.visits S.graph true { compartment := S.filter } := by
      rw [MarkingCall.visits_eq, h.filter]
    simp only [Step.count, MarkM.make, yields_bind, yields_get, hvisits]
    refine (h.yields_follow (fun thing _ => covers_pushThing thing)
      (fun thing hmem => hroots thing (mem_filterMap_thing?.mpr hmem)) (fun _ _ => Or.inl)
      ?_ ?_).imp ?_
    · exact fun thing fault _ hmem hfault =>
        Or.inr (Or.inl ⟨thing, mem_filterMap_thing?.mpr hmem, hfault⟩)
    · exact fun fault _ hmem => Or.inr (Or.inr hmem)
    · exact fun _ _ hlands => hlands.imp fun _ hrun hreached => ⟨hreached, Outline.load_run hrun⟩
  | slice budget =>
    rw [Step.count, yields_bind]
    refine (h.yields_countDrain hguarded).mono ?_ fun _ _ => Or.inl
    exact fun _ _ hlands => hlands.imp fun _ _ hknown => ⟨Terrain.Reached.nil, hknown.2.load⟩
  | delayedSlice budget =>
    rw [Step.count, yields_bind]
    refine (h.yields_countTrace hguarded).mono ?_ fun _ _ => Or.inl
    exact fun _ _ hlands => hlands.imp fun _ _ hspends => ⟨Terrain.Reached.nil, hspends.load⟩

theorem Tracks.yields_countAll {steps : List Step} (h : S.Tracks [] [] o s)
    (hguarded : o.Guarded S.toTerrain)
    (hroots : ∀ thing ∈ steps.flatMap (Step.roots S.graph S.filter),
      S.graph.Allowed S.filter thing → S.home thing) :
    Yields (Step.countAll S.graph steps) s
      (fun units => S.Lands o [] [] fun o' =>
        S.Reached (steps.flatMap (Step.roots S.graph S.filter)) o' ∧
        o'.load S.graph + units ≤ o.load S.graph)
      (fun fault t => S.Overflows fault t ∨ ∃ step ∈ steps, step.Fails S.graph S.filter fault) := by
  induction steps generalizing o s with
  | nil => exact ⟨o, .refl, h, Terrain.Reached.nil, Nat.le_refl _⟩
  | cons step steps ih =>
    rw [List.flatMap_cons] at hroots ⊢
    rw [Step.countAll, yields_bind]
    refine (h.yields_count hguarded fun thing hthing =>
      hroots thing (List.mem_append_left _ hthing)).mono ?_ ?_
    · intro first t hend
      obtain ⟨o₁, hrun₁, h₁, hreached, hload₁⟩ := hend
      rw [yields_bind]
      refine (ih h₁ (hguarded.run hrun₁) fun thing hthing =>
        hroots thing (List.mem_append_right _ hthing)).mono ?_ ?_
      · intro others u hlands
        refine (hlands.imp fun o₂ hrun₂ hknown => ?_).head hrun₁
        obtain ⟨hothers, hload₂⟩ := hknown
        exact ⟨(hreached.of_run hrun₂).append hothers, by omega⟩
      · intro fault u
        apply Or.imp_right
        intro hgiven
        obtain ⟨other, hother, hfails⟩ := hgiven
        exact ⟨other, List.mem_cons_of_mem _ hother, hfails⟩
    · exact fun fault t => Or.imp_right fun hfails => ⟨step, List.mem_cons_self .., hfails⟩

theorem Tracks.yields_steps {steps : List Step} (h : S.Tracks [] [] o s)
    (hguarded : o.Guarded S.toTerrain)
    (hroots : ∀ thing ∈ steps.flatMap (Step.roots S.graph S.filter),
      S.graph.Allowed S.filter thing → S.home thing) :
    Yields (steps.forM (Step.make S.graph)) s
      (fun _ => S.Lands o [] [] (S.Reached (steps.flatMap (Step.roots S.graph S.filter))))
      (fun fault t => S.Overflows fault t ∨ ∃ step ∈ steps, step.Fails S.graph S.filter fault) := by
  rw [← Step.map_countAll, yields_map]
  refine (h.yields_countAll hguarded hroots).imp fun _ _ hlands => ?_
  exact hlands.imp fun _ _ hknown => hknown.1

/-- Steps, and then a drain that says that nothing is left. -/
theorem Tracks.exists_drained {steps : List Step} {budget : Budget} {t u : Marking ω}
    (h : S.Tracks [] [] o s) (hbalanced : o.Balanced S.toTerrain)
    (hroots : ∀ thing ∈ steps.flatMap (Step.roots S.graph S.filter),
      S.graph.Allowed S.filter thing → S.home thing)
    (hsteps : steps.forM (Step.make S.graph) s = .ok () t)
    (hdrain : MarkM.drain S.graph budget t = .ok true u) : ∃ o',
    S.Run o o' ∧ S.Tracks [] [] o' u ∧ o'.Balanced S.toTerrain ∧
    S.Reached (steps.flatMap (Step.roots S.graph S.filter)) o' ∧ o'.work = 0 ∧ o'.delayed = [] := by
  obtain ⟨o₁, hrun₁, h₁, hreached⟩ := (h.yields_steps hbalanced.guarded hroots).of_ok hsteps
  have hbalanced₁ := hbalanced.run hrun₁
  obtain ⟨o₂, hrun₂, h₂, hdone⟩ := (h₁.yields_drain hbalanced₁.guarded).of_ok hdrain
  exact ⟨o₂, hrun₁.trans hrun₂, h₂, hbalanced₁.run hrun₂, hreached.of_run hrun₂, hdone rfl⟩

end Setting

namespace Launch

/-- Three objects, of which the first refers to the second and the second to the third. -/
def sample (stackLimit : Nat) (watcher : Option (Watcher ω)) : Launch ω where
  history :=
    [.baseShape .atoms none none none none, .shape .atoms ⟨0⟩ .void none,
      .typeObject .atoms [] none none none, .object .atoms ⟨0⟩ ⟨0⟩ 2, .object .atoms ⟨0⟩ ⟨0⟩ 1,
      .object .atoms ⟨0⟩ ⟨0⟩ 0, .slot ⟨0⟩ 0 (.object ⟨1⟩), .slot ⟨0⟩ 1 .null,
      .slot ⟨1⟩ 0 (.object ⟨2⟩)]
  grounded := by decide +kernel
  ledger := {}
  unmarked thing := by rw [ThingTable.isMarked, ThingTable.get_empty]; rfl
  configuration := { stackLimit, segmentSize := 2, maxCached := 0 }
  marker :=
    { stack :=
        { itemBytes := entryBytes, segmentSize := 2, maxCached := 0,
          maxSize := SegmentedStack.boundOf stackLimit } }
  made := rfl
  context := {}
  color := .gray
  watcher := watcher

/-- The same objects before a marker whose segments are larger than memory. -/
def cramped (watcher : Option (Watcher ω)) : Launch ω :=
  { sample 0 watcher with
    configuration := { stackLimit := 0, segmentSize := 2 ^ 60, maxCached := 0 }
    marker :=
      { stack :=
          { itemBytes := entryBytes, segmentSize := 2 ^ 60, maxCached := 0,
            maxSize := SegmentedStack.boundOf 0 } }
    made := rfl }

variable {L : Launch ω} {steps : List Step} {s : Marking ω}

/-- What is behind the state to which a session leads. -/
theorem Leads.exists_outline (h : L.Leads steps s) : ∃ o,
    (L.scene steps).Tracks [] [] o s ∧
    o.Balanced (L.scene steps).toTerrain ∧
    (L.scene steps).Reached (L.roots steps) o := by
  have hbalanced : (Outline.start L.ledger.marks).Balanced
      (L.scene steps).toTerrain := Outline.balanced_start L.unmarked
  obtain ⟨o, hrun, htracks, hreached⟩ := ((tracks_start False.elim).yields_steps hbalanced.guarded
    fun thing hthing hallowed => .root hthing hallowed).of_ok h
  exact ⟨o, htracks, hbalanced.run hrun, hreached⟩

/-- What is behind the state that a drain leaves when it says that nothing is left. -/
theorem Leads.exists_outline_of_drain (h : L.Leads steps s) {budget : Budget} {t : Marking ω}
    (hdrain : MarkM.drain L.graph budget s = .ok true t) : ∃ o,
    (L.scene steps).Tracks [] [] o t ∧
    o.Balanced (L.scene steps).toTerrain ∧
    (L.scene steps).Reached (L.roots steps) o ∧
    o.work = 0 ∧ o.delayed = [] := by
  have hbalanced : (Outline.start L.ledger.marks).Balanced
      (L.scene steps).toTerrain := Outline.balanced_start L.unmarked
  obtain ⟨o, -, htracks, hkept, hreached, hdone⟩ := (tracks_start False.elim).exists_drained
    hbalanced (fun thing hthing hallowed => .root hthing hallowed) h hdrain
  exact ⟨o, htracks, hkept, hreached, hdone⟩

/-- Where nothing is left to do, what is marked is what may be reached from the roots. -/
theorem marked_iff_of_idle {roots : List Thing} {calm : Prop} {hgentle : calm → L.Gentle}
    {o : Outline} (hwords : L.graph.WordSized)
    (hbalanced : o.Balanced (L.setting roots calm hgentle).toTerrain)
    (hreached : (L.setting roots calm hgentle).Reached roots o) (hwork : o.work = 0)
    (hdelayed : o.delayed = []) (thing : Thing) :
    o.Marked thing ↔ L.graph.Reachable L.filter roots thing :=
  ⟨hbalanced.placed.home thing,
    Setting.marked_of_idle hwords hbalanced hreached hwork hdelayed⟩

/-- A drain that has left nothing to do has marked what may be reached from the roots, in
whatever order and however often these were named. -/
theorem Leads.marked_iff_of_roots (h : L.Leads steps s) (hwords : L.graph.WordSized)
    {budget : Budget} {t : Marking ω} (hdrain : MarkM.drain L.graph budget s = .ok true t)
    {roots : List Thing}
    (hroots : ∀ thing, thing ∈ L.roots steps ↔ thing ∈ roots) (thing : Thing) :
    t.marks.isMarked thing = true ↔ L.graph.Reachable L.filter roots thing := by
  obtain ⟨o, htracks, hbalanced, hreached, hwork, hdelayed⟩ := h.exists_outline_of_drain hdrain
  rw [htracks.marks]
  refine (marked_iff_of_idle hwords hbalanced hreached hwork hdelayed thing).trans ?_
  exact ⟨fun hthing => hthing.mono fun root => (hroots root).mp,
    fun hthing => hthing.mono fun root => (hroots root).mpr⟩

end Launch

end MarkPhase
