import MarkPhase.Proofs.Lineages
import MarkPhase.Proofs.PendingWork

/-!
Nothing fails but for want of memory. Whatever a marker has been asked to do, with
whatever marks it has started and however often it has dropped its work, what is on its
stack and on its delayed list concerns marked things, and what it reads is where the
builders have put it. So no step finds anything that is not there.
-/

namespace MarkPhase

namespace MarkingCall

variable {g : Graph} {context : Context} {call : MarkingCall}

/-- The things that a call is given. -/
def references : MarkingCall → List Thing
  | .thing _ one => [one]
  | .table _ things => things.filterMap id
  | .unnamed one => [one]
  | .root _ one => one.toList
  | .property _ id => id.thing?.toList
  | .properties _ ids => ids.filterMap PropertyId.thing?
  | .value _ held => held.thing?.toList
  | .values _ held => held.filterMap Value.thing?
  | .wrapped _ held => held.thing?.toList
  | .children one => [one]
  | .lineage shape => [shape.thing]

/-- The call names only things of the graph. -/
def KnownOn (g : Graph) (call : MarkingCall) : Prop :=
  ∀ thing ∈ call.references, g.contains thing = true

instance (g : Graph) (call : MarkingCall) : Decidable (call.KnownOn g) :=
  inferInstanceAs (Decidable (∀ thing ∈ call.references, g.contains thing = true))

private theorem labelled_wrappedVisits {name : String} {one : Thing} (h : g.contains one = true) :
    Labelled (fun _ => True) (wrappedVisits g context name one) := by
  obtain ⟨compartment, hcompartment⟩ := (g.contains_iff_exists one).mp h
  unfold wrappedVisits
  rw [hcompartment]
  split
  · exact .edgeVisits trivial _
  · dsimp only
    split
    · exact .edgeVisits trivial _
    · exact .nil

private theorem eq_of_report_wrappedVisits {name : String} {one thing : Thing}
    (h : .report thing ∈ wrappedVisits g context name one) : one = thing := by
  unfold wrappedVisits at h
  split at h
  · simpa using h
  · split at h
    · simp at h
    · split at h
      · simpa using h
      · exact absurd h List.not_mem_nil

/-- No enumeration of things that are there breaks off. -/
theorem broken_notMem_visits (h : g.Sound) (hlayered : g.Layered) (hknown : call.KnownOn g)
    (fault : Fault) : .broken fault ∉ call.visits g true context := by
  have hall : ∀ {visits : List Visit}, Labelled (fun _ => True) visits → .broken fault ∉ visits :=
    fun hvisits => hvisits.broken_notMem fault
  cases call with
  | thing name one => exact hall (.edgeVisits trivial _)
  | table name things => exact hall (.tableVisits (fun _ => trivial) _)
  | unnamed one => simp [visits]
  | root name one => exact hall (.edgeVisits trivial _)
  | property name id => exact hall (.edgeVisits trivial _)
  | properties name ids => exact hall (.flatMap fun _ _ => .edgeVisits trivial _)
  | value name held => exact hall (.edgeVisits trivial _)
  | values name held => exact hall (.valueTableVisits (fun _ => trivial) _)
  | wrapped name held =>
    cases hthing : held.thing? with
    | none => simp [visits, hthing]
    | some one =>
      have hcontains := hknown one (by simp [references, hthing])
      simpa only [visits, hthing] using hall (labelled_wrappedVisits hcontains)
  | children one => exact h.broken_notMem (hknown one (List.mem_singleton_self one)) true fault
  | lineage shape =>
    refine hall (hlayered.labelled_lineageFrom h _ _ fun id hid => ?_)
    obtain rfl := Option.some.inj hid
    have hcontains := hknown shape.thing (List.mem_singleton_self _)
    exact ⟨hcontains, Nat.lt_succ_of_lt (of_decide_eq_true hcontains)⟩

/-- A call that names what is there reports what is there. -/
theorem contains_of_report_visits (h : g.Sound) (hknown : call.KnownOn g) {thing : Thing}
    (hmem : .report thing ∈ call.visits g true context) : g.contains thing = true := by
  cases call with
  | children one => exact h.contains_of_report hmem
  | lineage shape =>
    refine h.contains_of_lineageFrom _ _ (fun id hid => ?_) hmem
    obtain rfl := Option.some.inj hid
    exact hknown shape.thing (List.mem_singleton_self _)
  | wrapped name held =>
    cases hthing : held.thing? with
    | none => simp [visits, hthing] at hmem
    | some one =>
      simp only [visits, hthing] at hmem
      obtain rfl := eq_of_report_wrappedVisits hmem
      exact hknown one (by simp [references, hthing])
  | _ =>
    refine hknown thing ?_
    simpa [visits, references, eq_comm] using hmem

/-- A call that names what is there does not fail. -/
theorem not_fails (h : g.Sound) (hlayered : g.Layered) (hknown : call.KnownOn g)
    (filter : Option CompartmentId) (fault : Fault) : ¬ call.Fails g filter fault := by
  rintro (⟨thing, hroot, hobjection⟩ | hbroken)
  · have hcontains := contains_of_report_visits h hknown (mem_filterMap_thing?.mp hroot)
    rw [h.objection?_eq_none hcontains] at hobjection
    cases hobjection
  · exact broken_notMem_visits h hlayered hknown fault hbroken

end MarkingCall

/-- What a marker may be asked to do at any time. -/
inductive Command
  | step (step : Step)
  /-- Work that is left is dropped. -/
  | reset
  | recolor (color : Color)
deriving DecidableEq

namespace Command

variable {ω : Type}

def make (g : Graph) : Command → MarkM ω Unit
  | .step one => one.make g
  | .reset => modify fun s => { s with toMarker := s.toMarker.reset }
  | .recolor color => modify fun s => { s with color }

/-- The command names only things of the graph. -/
def KnownOn (g : Graph) : Command → Prop
  | .step (.call request) => request.KnownOn g
  | _ => True

def Fails (g : Graph) (filter : Option CompartmentId) (fault : Fault) : Command → Prop
  | .step one => one.Fails g filter fault
  | _ => False

instance (g : Graph) : (command : Command) → Decidable (command.KnownOn g)
  | .step (.call request) => inferInstanceAs (Decidable (request.KnownOn g))
  | .step (.slice _) => inferInstanceAs (Decidable True)
  | .step (.delayedSlice _) => inferInstanceAs (Decidable True)
  | .reset => inferInstanceAs (Decidable True)
  | .recolor _ => inferInstanceAs (Decidable True)

end Command

variable {ω : Type}

/-- The outline of a state from which on moves are looked at. -/
def Marking.outline (s : Marking ω) : Outline where
  marks := s.marks
  work := ↑s.stacked
  delayed := s.delayed.things
  notices := []
  delays := []
  shaded := []

namespace Launch

variable {L : Launch ω} {s t : Marking ω} {o : Outline}

/-- What there is to do concerns marked things that the marker may look at. -/
structure Ready (L : Launch ω) (s : Marking ω) : Prop where
  filter : s.context.compartment = L.filter
  stack : s.stack.Tidy
  segmentSize : s.stack.segmentSize = L.configuration.segmentSize
  itemBytes : s.stack.itemBytes = entryBytes
  roomy : s.stack.items ≠ [] → fitsMemory L.configuration.segmentSize entryBytes = true
  rope : ∀ id, .rope id ∉ s.stack.items
  stacked : ∀ entry ∈ s.stack.items,
    s.marks.isMarked entry.owner = true ∧ L.graph.Allowed L.filter entry.owner
  range : ∀ entry ∈ s.stack.items, ∀ range, entry.duty.range? = some range → L.graph.Admits range
  delayedTidy : s.delayed.Tidy
  delayed : ∀ thing ∈ s.delayed.things,
    s.marks.isMarked thing = true ∧ L.graph.Allowed L.filter thing

theorem sound (L : Launch ω) : L.graph.Sound :=
  Heap.sound_built L.grounded

/-- All that the marker may look at is the territory of what comes after a state. -/
def resuming (L : Launch ω) (s : Marking ω) (hfilter : s.context.compartment = L.filter) :
    Setting ω where
  graph := L.graph
  sound := L.sound
  filter := L.filter
  home := L.graph.Allowed L.filter
  home_allowed _ := id
  home_child _ _ _ _ := id
  roomy := fitsMemory s.stack.segmentSize s.stack.itemBytes = true
  calm := False
  start := s
  start_filter := hfilter
  roomy_iff := Iff.rfl
  gentle := False.elim

namespace Ready

theorem fits_iff (h : L.Ready s) :
    fitsMemory s.stack.segmentSize s.stack.itemBytes =
      fitsMemory L.configuration.segmentSize entryBytes := by
  rw [h.segmentSize, h.itemBytes]

/-- What a state that is ready overflows with is the want of memory for a segment. -/
theorem allocationFault?_of_overflows (h : L.Ready s) {fault : Fault}
    (hoverflow : (L.resuming s h.filter).Overflows fault t) :
    allocationFault? L.configuration.segmentSize entryBytes = some fault := by
  rw [← h.segmentSize, ← h.itemBytes]
  exact hoverflow

theorem tracks (h : L.Ready s) : (L.resuming s h.filter).Tracks [] [] s.outline s where
  marks := rfl
  stack := h.stack
  ropes := ⟨s.stack.items, rfl, h.rope⟩
  work := rfl
  delayedTidy := h.delayedTidy
  delayed := rfl
  delays := rfl
  journal := (List.append_nil _).symm
  watcher := by
    change s.watcher = s.watcher.map id
    rw [Option.map_id_fun, id]
  filter := h.filter
  segmentSize := rfl
  itemBytes := rfl
  roomy := fun hne => h.fits_iff.trans (h.roomy hne)
  bounded := False.elim

theorem guarded (h : L.Ready s) : s.outline.Guarded (L.resuming s h.filter).toTerrain where
  owner duty hduty := by
    obtain ⟨entry, hentry, rfl⟩ := List.mem_map.mp (Multiset.mem_coe.mp hduty)
    exact entry.owner_duty ▸ h.stacked entry hentry
  delayed := h.delayed
  admits duty hduty := by
    obtain ⟨entry, hentry, rfl⟩ := List.mem_map.mp (Multiset.mem_coe.mp hduty)
    exact h.range entry hentry

/-- A state that is reached without anything in hand is ready again. -/
theorem of_tracks (h : L.Ready s) (htracks : (L.resuming s h.filter).Tracks [] [] o t)
    (hguarded : o.Guarded (L.resuming s h.filter).toTerrain) : L.Ready t where
  filter := htracks.filter
  stack := htracks.stack
  segmentSize := htracks.segmentSize.trans h.segmentSize
  itemBytes := htracks.itemBytes.trans h.itemBytes
  roomy hne := h.fits_iff.symm.trans (htracks.roomy hne)
  rope := by
    obtain ⟨plain, hitems, hplain⟩ := htracks.ropes
    exact hitems ▸ hplain
  stacked entry hentry := by
    have hwork : entry.duty ∈ o.work := htracks.mem_work_iff.mpr ⟨entry, hentry, rfl⟩
    rw [htracks.marks, ← entry.owner_duty]
    exact hguarded.owner _ hwork
  range entry hentry := hguarded.admits _ (htracks.mem_work_iff.mpr ⟨entry, hentry, rfl⟩)
  delayedTidy := htracks.delayedTidy
  delayed thing hthing := by
    rw [htracks.marks]
    exact hguarded.delayed thing (htracks.delayed ▸ hthing)

/-- A marker that has dropped its work has nothing to do. -/
theorem reset (h : L.Ready s) : L.Ready { s with toMarker := s.toMarker.reset } := by
  obtain ⟨hsegment, hbytes, -⟩ := s.stack.settings_clear false
  have hitems : s.toMarker.reset.stack.items = [] := s.stack.items_clear false
  exact {
    filter := h.filter
    stack := (h.stack.clear false).resetPeak
    segmentSize := hsegment.trans h.segmentSize
    itemBytes := hbytes.trans h.itemBytes
    roomy := fun hne => absurd hitems hne
    rope := fun id hid => absurd (hitems ▸ hid) List.not_mem_nil
    stacked := fun entry hentry => absurd (hitems ▸ hentry) List.not_mem_nil
    range := fun entry hentry => absurd (hitems ▸ hentry) List.not_mem_nil
    delayedTidy := DelayedList.tidy_empty
    delayed := fun thing hthing => absurd hthing List.not_mem_nil }

theorem recolor (h : L.Ready s) (color : Color) : L.Ready { s with color } :=
  { h with }

/-- A command ends, or it wants more memory than there is, or a call fails. -/
theorem yields_command (h : L.Ready s) (command : Command) :
    Yields (command.make L.graph) s (fun _ => L.Ready) fun fault _ =>
      allocationFault? L.configuration.segmentSize entryBytes = some fault ∨
        command.Fails L.graph L.filter fault := by
  cases command with
  | reset =>
    rw [Command.make, yields_modify]
    exact h.reset
  | recolor color =>
    rw [Command.make, yields_modify]
    exact h.recolor color
  | step step =>
    rw [Command.make, ← Step.map_count, yields_map]
    refine (h.tracks.yields_count h.guarded fun _ _ => id).mono ?_ ?_
    · intro _ t hlands
      obtain ⟨o, hrun, htracks, -⟩ := hlands
      exact h.of_tracks htracks (h.guarded.run hrun)
    · exact fun fault t hfault => hfault.imp_left h.allocationFault?_of_overflows

/-- A command that names what is there ends, or wants more memory than there is. -/
theorem yields_make (h : L.Ready s) {command : Command} (hknown : command.KnownOn L.graph) :
    Yields (command.make L.graph) s (fun _ => L.Ready) fun fault _ =>
      allocationFault? L.configuration.segmentSize entryBytes = some fault := by
  have hnever : ∀ fault, ¬ command.Fails L.graph L.filter fault := by
    intro fault hfails
    cases command with
    | step step =>
      cases step with
      | call request =>
        exact MarkingCall.not_fails L.sound (Heap.layered_built L.grounded) hknown L.filter fault
          hfails
      | slice budget => exact hfails
      | delayedSlice budget => exact hfails
    | _ => exact hfails
  exact (h.yields_command command).mono (fun _ _ => id) fun fault _ hfault =>
    hfault.resolve_right (hnever fault)

/-- Commands that end leave a marker that is ready again. -/
theorem of_commands (h : L.Ready s) {commands : List Command}
    (hrun : commands.forM (Command.make L.graph) s = .ok () t) : L.Ready t := by
  have hyields : Yields (commands.forM (Command.make L.graph)) s (fun _ => L.Ready)
      fun _ _ => True := by
    clear hrun
    induction commands generalizing s with
    | nil => exact h
    | cons command commands ih =>
      change Yields (command.make L.graph >>= fun _ => commands.forM (Command.make L.graph)) s _ _
      rw [yields_bind]
      exact (h.yields_command command).mono (fun _ _ => ih) fun _ _ _ => trivial
  exact hyields.of_ok hrun

theorem yields_forM (h : L.Ready s) {commands : List Command}
    (hknown : ∀ command ∈ commands, command.KnownOn L.graph) :
    Yields (commands.forM (Command.make L.graph)) s (fun _ => L.Ready) fun fault _ =>
      allocationFault? L.configuration.segmentSize entryBytes = some fault := by
  induction commands generalizing s with
  | nil => exact h
  | cons command commands ih =>
    change Yields (command.make L.graph >>= fun _ => commands.forM (Command.make L.graph)) s _ _
    rw [yields_bind]
    refine (h.yields_make (hknown command (List.mem_cons_self ..))).imp fun _ t ht => ?_
    exact ih ht fun other hother => hknown other (List.mem_cons_of_mem _ hother)

/-- Steps that name what is there end, or want more memory than there is. -/
theorem yields_steps (h : L.Ready s) {steps : List Step}
    (hknown : ∀ step ∈ steps, (Command.step step).KnownOn L.graph) :
    Yields (steps.forM (Step.make L.graph)) s (fun _ => L.Ready) fun fault _ =>
      allocationFault? L.configuration.segmentSize entryBytes = some fault := by
  have hyields : Yields ((steps.map Command.step).forM (Command.make L.graph)) s _ _ :=
    h.yields_forM fun command hcommand => by
      obtain ⟨step, hstep, rfl⟩ := List.mem_map.mp hcommand
      exact hknown step hstep
  simpa only [List.forM_eq_forM, List.forM_map, Command.make] using hyields

/-- A move that fails only for want of memory ends where segments fit memory. -/
theorem exists_of_fits {α : Type} {m : MarkM ω α} {post : α → Marking ω → Prop}
    (hfits : fitsMemory L.configuration.segmentSize entryBytes = true)
    (hyields : Yields m s post fun fault _ =>
      allocationFault? L.configuration.segmentSize entryBytes = some fault) :
    ∃ a t, m s = .ok a t ∧ post a t :=
  hyields.exists_ok fun _ _ hfault =>
    Bool.false_ne_true ((fitsMemory_of_allocationFault? hfault).symm.trans hfits)

theorem exists_steps (h : L.Ready s) {steps : List Step}
    (hfits : fitsMemory L.configuration.segmentSize entryBytes = true)
    (hknown : ∀ step ∈ steps, (Command.step step).KnownOn L.graph) :
    ∃ t, steps.forM (Step.make L.graph) s = .ok () t ∧ L.Ready t := by
  obtain ⟨_, t, ht, hready⟩ := exists_of_fits hfits (h.yields_steps hknown)
  exact ⟨t, ht, hready⟩

end Ready

theorem ready_start (L : Launch ω) (marks : MarkTable) : L.Ready { L.start with marks } := by
  obtain ⟨hitems, htidy, -, hdelayed, -⟩ := L.start_idle
  have hidle : L.start.delayed.things = [] := by rw [hdelayed]
  exact {
    filter := rfl
    stack := htidy
    segmentSize := congrArg (fun marker => marker.stack.segmentSize) L.marker_eq.2
    itemBytes := congrArg (fun marker => marker.stack.itemBytes) L.marker_eq.2
    roomy := fun hne => absurd hitems hne
    rope := fun id hid => absurd (hitems ▸ hid) List.not_mem_nil
    stacked := fun entry hentry => absurd (hitems ▸ hentry) List.not_mem_nil
    range := fun entry hentry => absurd (hitems ▸ hentry) List.not_mem_nil
    delayedTidy := hdelayed ▸ DelayedList.tidy_empty
    delayed := fun thing hthing => absurd (hidle ▸ hthing) List.not_mem_nil }

/-- Over a heap whose building calls named what was there, commands that name what is there
fail for want of memory only, with whatever marks they start. Slots below a span are stored,
and an owned base shape repeats its twin. -/
theorem runs_safely (L : Launch ω) (marks : MarkTable) {commands : List Command}
    (hknown : ∀ command ∈ commands, command.KnownOn L.graph) :
    ((∃ t, commands.forM (Command.make L.graph) { L.start with marks } = .ok () t ∧ L.Ready t) ∨
      ∃ fault t, allocationFault? L.configuration.segmentSize entryBytes = some fault ∧
        commands.forM (Command.make L.graph) { L.start with marks } = .error fault t) ∧
    (∀ id cell, L.graph.object? id = some cell → cell.Stored) ∧
    ∀ id cell twin, L.graph.baseShape? id = some cell → cell.twin = some twin →
      ∃ other, L.graph.baseShape? twin = some other ∧ Graph.Agrees cell other := by
  have hyields := (L.ready_start marks).yields_forM hknown
  refine ⟨?_, fun id cell hid => (L.sound.object hid).2, fun id cell twin hid htwin => ?_⟩
  · cases hrun : commands.forM (Command.make L.graph) { L.start with marks } with
    | ok a t => exact Or.inl ⟨t, rfl, hyields.of_ok hrun⟩
    | error fault t => exact Or.inr ⟨fault, t, hyields.of_error hrun, rfl⟩
  · exact (L.sound.baseShape hid).2 twin htwin

theorem runs_safely_sample :
    let L : Launch Unit := sample 1 (some ⟨.rangeless, ()⟩)
    let marks : MarkTable := ThingTable.set {} ⟨.object, 2⟩ (.marked .gray)
    let commands : List Command := [.step (.call (.lineage ⟨0⟩)),
      .step (.call (.unnamed ⟨.object, 0⟩)), .step (.slice (.work 1)), .reset, .recolor .black,
      .step (.call (.children ⟨.object, 0⟩)), .step (.delayedSlice .unlimited)]
    (∀ command ∈ commands, command.KnownOn L.graph) ∧
    (∃ t, commands.forM (Command.make L.graph) { L.start with marks } = .ok () t ∧ L.Ready t) ∧
    (∀ id cell, L.graph.object? id = some cell → cell.Stored) ∧
    ∀ id cell twin, L.graph.baseShape? id = some cell → cell.twin = some twin →
      ∃ other, L.graph.baseShape? twin = some other ∧ Graph.Agrees cell other := by
  intro L marks commands
  have hknown : ∀ command ∈ commands, command.KnownOn L.graph := by decide +kernel
  obtain ⟨hends | ⟨fault, t, hfault, -⟩, hrest⟩ := L.runs_safely marks hknown
  · exact ⟨hknown, hends, hrest⟩
  · cases hfault

/-- Where no segment fits memory, a call that puts an object on the stack fails. -/
theorem call_fails_without_memory :
    let L : Launch Unit := cramped none
    let commands : List Command := [.step (.call (.unnamed ⟨.object, 0⟩))]
    0 < L.configuration.segmentSize ∧ (∀ command ∈ commands, command.KnownOn L.graph) ∧
      ∃ t, commands.forM (Command.make L.graph) L.start = .error .capacityOverflow t := by
  intro L commands
  have hstop : ∃ t, commands.forM (Command.make L.graph) L.start = .error .capacityOverflow t :=
    Yields.exists_stop (by decide +kernel)
  exact ⟨by decide, by decide +kernel, hstop⟩

end Launch

end MarkPhase
