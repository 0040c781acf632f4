import MarkPhase.Proofs.Bounds

/-!
Starting over. A marker that has dropped its work in the middle of a run, over a heap whose
marks have been cleared, cannot be told from a new one. The segments that its stack has
kept, the label at hand and the journal are all that is left of the run, and nothing that a
marker does depends on these.
-/

namespace MarkPhase

variable {ω : Type}

namespace Command

open Marking (Endures Develops)

theorem endures_make (g : Graph) (command : Command) :
    Respects Endures (command.make g : MarkM ω Unit) := by
  cases command with
  | step step =>
    intro s
    exact ((MarkM.lasting_develops g).step step s).mono (fun _ _ h => h.toEndures)
      fun _ _ h => h.toEndures
  | recolor color => exact .modify fun _ => .of_eq rfl rfl rfl
  | reset =>
    refine .modify fun s => ?_
    obtain ⟨hsegment, hbytes, hmax, -⟩ := s.stack.settings_clear false
    exact ⟨hmax, hsegment, hbytes, fun htidy => (htidy.clear false).resetPeak, rfl, rfl⟩

theorem endures_forM (g : Graph) (commands : List Command) :
    Respects Endures (commands.forM (make g) : MarkM ω Unit) := by
  induction commands with
  | nil => exact .pure _
  | cons command commands ih => exact .bind (command.endures_make g) fun _ => ih

end Command

/-- The marker drops its work and all marks are cleared. Whoever watches from now on may be
somebody else. -/
def Marking.startOver (s : Marking ω) (watcher : Option (Watcher ω)) : Marking ω :=
  { toLedger := s.toLedger.clearMarks
    toMarker := { s.toMarker.reset with watcher } }

namespace Launch

open MarkM
open Marking (InStep)

/-- A new marker of the same configuration and with the same filter, over the same heap with
all marks cleared. -/
def afresh (L : Launch ω) (color : Color) (watcher : Option (Watcher ω)) : Launch ω :=
  { L with
    ledger := L.ledger.clearMarks
    unmarked := L.ledger.isMarked_clearMarks
    color
    watcher }

variable {L : Launch ω} {s : Marking ω}

theorem inStep_startOver (hendures : L.start.Endures s) (watcher : Option (Watcher ω)) :
    (s.startOver watcher).InStep (L.afresh s.color watcher).start := by
  obtain ⟨hitems, htidy, hmaximum, hdelayed, -⟩ := L.start_idle
  obtain ⟨hsegment, hbytes, hmax, -⟩ := s.stack.settings_clear false
  have hmarker := L.marker_eq.2
  have hempty : (s.startOver watcher).stack.items = [] := s.stack.items_clear false
  have htidy' : (s.startOver watcher).stack.Tidy := ((hendures.tidy htidy).clear false).resetPeak
  have hbound : (s.startOver watcher).stack.maxSize =
      SegmentedStack.boundOf L.configuration.stackLimit :=
    hmax.trans (hendures.maxSize.trans hmaximum)
  exact {
    marks := rfl
    filenames := by
      change s.filenames.clearMarks = L.ledger.filenames.clearMarks
      rw [FilenameTable.clearMarks_eq, FilenameTable.clearMarks_eq, hendures.names]
      rfl
    filter := hendures.filter
    color := rfl
    stack := {
      tidy := htidy'
      otherTidy := htidy
      items := hempty.trans hitems.symm
      peak := by
        have hzero : L.marker.stack.peak = 0 := congrArg (fun marker => marker.stack.peak) hmarker
        refine Eq.trans ?_ hzero.symm
        change (s.stack.clear false).size = 0
        rw [((hendures.tidy htidy).clear false).size_eq, s.stack.items_clear]
        rfl
      segmentSize := hsegment.trans hendures.segmentSize
      itemBytes := hbytes.trans hendures.itemBytes
      roomy := fun hne => absurd hempty hne
      bounded := hbound.symm ▸ SegmentedStack.boundOf_pos _
      otherBounded := hmaximum.symm ▸ SegmentedStack.boundOf_pos _ }
    delayed := hdelayed.symm
    scanned := (congrArg Marker.scanned hmarker).symm
    delays := (congrArg Marker.delays hmarker).symm
    slices := (congrArg Marker.slices hmarker).symm
    watcher := rfl
    settled := fun _ => rfl }

/-- Whatever a marker has been asked to do, once it has dropped its work and all marks have
been cleared, every session is the same as with a new marker: it gets the same answers and
ends at the same marks and counts, or it stops at the same fault. -/
theorem abandoned_leaves_no_trace (L : Launch ω) (marks : MarkTable) {commands : List Command}
    {s : Marking ω}
    (hpartial : commands.forM (Command.make L.graph) (L.startWith marks) = .ok () s)
    (watcher : Option (Watcher ω)) (steps : List Step) :
    ((∃ answers t u, Step.replies L.graph steps (s.startOver watcher) = .ok answers t ∧
        Step.replies L.graph steps (L.afresh s.color watcher).start = .ok answers u ∧
        t.Repeats u) ∨
      ∃ fault t u, Step.replies L.graph steps (s.startOver watcher) = .error fault t ∧
        Step.replies L.graph steps (L.afresh s.color watcher).start = .error fault u ∧
        t.Repeats u) ∧
    (fitsMemory L.configuration.segmentSize entryBytes = true →
      (∀ step ∈ steps, (Command.step step).KnownOn L.graph) →
      ∃ answers t, Step.replies L.graph steps (s.startOver watcher) = .ok answers t) := by
  have hendures : (L.startWith marks).Endures s :=
    (Command.endures_forM L.graph commands _).of_ok hpartial
  have hstart : L.start.Endures (L.startWith marks) := .of_eq rfl rfl rfl
  have hstep : (s.startOver watcher).InStep (L.afresh s.color watcher).start :=
    inStep_startOver (trans_of Marking.Endures hstart hendures) watcher
  have hsteady : Abreast (Step.replies L.graph steps : MarkM ω (List Reply)) :=
    (lasting_abreast L.graph).replies steps
  have hzero : (s.startOver watcher).stack.peak = 0 :=
    hstep.stack.peak.trans (congrArg (fun marker => marker.stack.peak) L.marker_eq.2)
  have hbound : (s.startOver watcher).stack.maxSize =
      (L.afresh s.color watcher).start.stack.maxSize :=
    (s.stack.settings_clear false).2.2.1.trans hendures.maxSize
  obtain ⟨answers, t, u, ht, hu, -, hend⟩ | ⟨fault, t, u, ht, hu, hend⟩ :=
    (hsteady.matched hstep (hzero.trans_le (Nat.zero_le _)) hbound).cases_ends
  · exact ⟨Or.inl ⟨answers, t, u, ht, hu, hend.repeats⟩, fun _ _ => ⟨answers, t, ht⟩⟩
  · refine ⟨Or.inr ⟨fault, t, u, ht, hu, hend.repeats⟩, fun hfits hknown => ?_⟩
    have hready := (L.afresh s.color watcher).ready_start (L.afresh s.color watcher).start.marks
    obtain ⟨answers, u', hu'⟩ := hready.exists_replies hfits hknown
    have hclash := hu.symm.trans hu'
    cases hclash

/-- A run that is broken off in the middle of a slice, with work on the stack and two delayed
things. -/
theorem abandoned_leaves_no_trace_sample :
    let L : Launch Unit := sample 1 (some ⟨.rangeless, ()⟩)
    let marks : MarkTable := ThingTable.set {} ⟨.object, 2⟩ (.marked .black)
    let commands : List Command := [.step (.call (.unnamed ⟨.object, 0⟩)), .recolor .black,
      .step (.slice (.work 1))]
    let steps : List Step := [.call (.unnamed ⟨.object, 1⟩), .slice (.work 1),
      .delayedSlice .unlimited]
    ∃ s, commands.forM (Command.make L.graph) (L.startWith marks) = .ok () s ∧
      s.stack.isEmpty = false ∧ s.delayed.isEmpty = false ∧ s.delays = 2 ∧
      ((∃ answers t u, Step.replies L.graph steps (s.startOver L.watcher) = .ok answers t ∧
          Step.replies L.graph steps (L.afresh s.color L.watcher).start = .ok answers u ∧
          t.Repeats u) ∨
        ∃ fault t u, Step.replies L.graph steps (s.startOver L.watcher) = .error fault t ∧
          Step.replies L.graph steps (L.afresh s.color L.watcher).start = .error fault u ∧
          t.Repeats u) ∧
      (fitsMemory L.configuration.segmentSize entryBytes = true →
        (∀ step ∈ steps, (Command.step step).KnownOn L.graph) →
        ∃ answers t, Step.replies L.graph steps (s.startOver L.watcher) = .ok answers t) := by
  intro L marks commands steps
  obtain ⟨_, s, hs, hbusy⟩ : ∃ a s,
      commands.forM (Command.make L.graph) (L.startWith marks) = .ok a s ∧
      s.stack.isEmpty = false ∧ s.delayed.isEmpty = false ∧ s.delays = 2 :=
    Yields.exists_post (by decide +kernel)
  obtain ⟨hstack, hdelayed, hdelays⟩ := hbusy
  exact ⟨s, hs, hstack, hdelayed, hdelays, L.abandoned_leaves_no_trace marks hs L.watcher steps⟩

end Launch

end MarkPhase
