import MarkPhase.Proofs.Lockstep
import MarkPhase.Proofs.Slicing

/-!
The bound that a run needs. A marker without a bound never refuses an entry, and the peak
that it reports tells which bounds make a difference. With a bound that is no less than
this peak the run is the same; with a smaller one something is delayed.
-/

namespace MarkPhase

variable {ω : Type}

namespace Launch

open MarkM
open Marking (InStep Develops)

variable {L : Launch ω} {s t u : Marking ω} {steps : List Step}

/-- The same start with another bound for the stack; zero stands for none. -/
def bounded (L : Launch ω) (limit : Nat) : Launch ω :=
  { L with
    configuration := { L.configuration with stackLimit := limit }
    marker := { L.marker with
      stack := { L.marker.stack with maxSize := SegmentedStack.boundOf limit } }
    made := by
      obtain ⟨hpos, hmarker⟩ := L.marker_eq
      rw [hmarker, Marker.make, SegmentedStack.make, if_neg (Nat.pos_iff_ne_zero.mp hpos)]
      rfl }

/-- The state before the first step, with marks from earlier. -/
def startWith (L : Launch ω) (marks : MarkTable) : Marking ω :=
  { L.start with marks }

/-- Where nothing is refused and nothing waits, steps delay nothing. -/
theorem Ready.delays_eq (h : L.Ready s)
    (hgentle : ∀ watcher, s.watcher = some watcher → ∀ entry memory,
      (watcher.observer.refuses entry memory).1 = false)
    (hload : s.outline.load L.graph < s.stack.maxSize) (hidle : s.delayed.things = [])
    (hsteps : steps.forM (Step.make L.graph) s = .ok () t) : t.delays = s.delays := by
  let S : Setting ω := { L.resuming s h.filter with calm := True, gentle := fun _ => hgentle }
  have htracks : S.Tracks [] [] s.outline s := { h.tracks with bounded := fun _ => hload }
  have hguarded : s.outline.Guarded S.toTerrain :=
    ⟨h.guarded.owner, h.guarded.delayed, h.guarded.admits⟩
  obtain ⟨o, hrun, htracks', -⟩ :=
    (htracks.yields_steps hguarded fun _ _ => id).of_ok hsteps
  obtain ⟨hdelays, -⟩ := Setting.delays_of_run trivial hrun rfl hidle
  rw [htracks'.delays, hdelays]
  rfl

/-- Without a bound nothing is ever delayed. -/
theorem delays_of_unbounded (hgentle : L.Gentle) (hnumbered : L.graph.Numbered)
    (hunbounded : L.configuration.stackLimit = 0) (marks : MarkTable)
    (hsteps : steps.forM (Step.make L.graph) (L.startWith marks) = .ok () t) : t.delays = 0 := by
  obtain ⟨hitems, -, hmaximum, hdelayed, hdelays⟩ := L.start_idle
  have hidle : (L.startWith marks).outline = Outline.start marks := by
    unfold Marking.outline Marker.stacked startWith
    rw [hitems, hdelayed]
    rfl
  have hload : (L.startWith marks).outline.load L.graph < (L.startWith marks).stack.maxSize := by
    have hcount := hnumbered.thingCount_le
    have hbound : (L.startWith marks).stack.maxSize = 2 ^ 64 - 1 := by
      refine hmaximum.trans ?_
      rw [hunbounded]
      rfl
    rw [hidle, hbound]
    apply (Outline.load_start_le marks L.graph).trans_lt
    omega
  rw [← hdelays]
  exact (L.ready_start marks).delays_eq hgentle hload (congrArg DelayedList.things hdelayed) hsteps

/-- Starts that differ in their bounds only are in step. -/
theorem inStep_bounded (L : Launch ω) (limit other : Nat) (marks : MarkTable) :
    ((L.bounded limit).startWith marks).InStep ((L.bounded other).startWith marks) := by
  obtain ⟨hitems, htidy, -, hdelayed, -⟩ := (L.bounded limit).start_idle
  obtain ⟨-, htidy', -⟩ := (L.bounded other).start_idle
  exact {
    marks := rfl
    filenames := rfl
    filter := rfl
    color := rfl
    stack := {
      tidy := htidy
      otherTidy := htidy'
      items := rfl
      peak := rfl
      segmentSize := rfl
      itemBytes := rfl
      roomy := fun hne => absurd hitems hne
      bounded := SegmentedStack.boundOf_pos limit
      otherBounded := SegmentedStack.boundOf_pos other }
    delayed := rfl
    scanned := rfl
    delays := rfl
    slices := rfl
    watcher := rfl
    settled := fun _ => hdelayed }

/-- The peak of a run without a bound tells what a bound does to the run. Below the peak it
makes the run delay something; otherwise it changes nothing. No run gets deeper than its
bound, and where segments fit memory every run ends. -/
theorem peak_is_tight (L : Launch ω) (hgentle : L.Gentle) (hnumbered : L.graph.Numbered)
    (marks : MarkTable) {steps : List Step}
    (hknown : ∀ step ∈ steps, (Command.step step).KnownOn L.graph) :
    (fitsMemory L.configuration.segmentSize entryBytes = true → ∃ answers s,
      Step.replies L.graph steps ((L.bounded 0).startWith marks) = .ok answers s) ∧
    ∀ answers s, Step.replies L.graph steps ((L.bounded 0).startWith marks) = .ok answers s →
      ∀ limit, 1 ≤ limit → ∃ others t,
        Step.replies L.graph steps ((L.bounded limit).startWith marks) = .ok others t ∧
        t.statistics.peakDepth ≤ limit ∧
        (s.statistics.peakDepth ≤ limit →
          others = answers ∧ t.Repeats s ∧ t.statistics.delayed = 0) ∧
        (limit < s.statistics.peakDepth → 0 < t.statistics.delayed) := by
  have hready : ∀ limit, (L.bounded limit).Ready ((L.bounded limit).startWith marks) :=
    fun limit => (L.bounded limit).ready_start marks
  refine ⟨fun hfits => (hready 0).exists_replies hfits hknown, fun answers s hs limit hlimit => ?_⟩
  have hmaximum : ((L.bounded limit).startWith marks).stack.maxSize = limit := by
    change SegmentedStack.boundOf limit = limit
    rw [SegmentedStack.boundOf, if_neg (by omega)]
  -- A run that ends, with or without a bound, is as deep as its bound at most.
  have hpeak : ∀ {others t}, Step.replies L.graph steps ((L.bounded limit).startWith marks) =
      .ok others t → t.stack.peak ≤ limit := by
    intro others t ht
    have hdevelops : ((L.bounded limit).startWith marks).Develops t :=
      ((lasting_develops L.graph).replies steps _).of_ok ht
    have hzero : L.marker.stack.peak = 0 :=
      congrArg (fun marker => marker.stack.peak) L.marker_eq.2
    have hle := hdevelops.peak_le (hready limit).stack (hzero.trans_le (Nat.zero_le _))
    rwa [hdevelops.maxSize, hmaximum] at hle
  have hnone : s.delays = 0 := by
    have hsteps : steps.forM (Step.make L.graph) ((L.bounded 0).startWith marks) = .ok () s := by
      rw [← Step.map_replies]
      exact map_eq_ok hs
    exact (L.bounded 0).delays_of_unbounded hgentle hnumbered rfl marks hsteps
  cases ((lasting_abreast L.graph).replies steps).lockstep (L.inStep_bounded 0 limit marks) with
  | together hmatched =>
    obtain ⟨t, ht, -, hstep⟩ := hmatched.exists_ok hs
    refine ⟨answers, t, ht, hpeak ht, fun _ => ⟨rfl, hstep.symm.repeats, ?_⟩, fun hless => ?_⟩
    · exact hstep.delays.symm.trans hnone
    · have hle := hpeak ht
      rw [← hstep.stack.peak] at hle
      exact absurd hle (Nat.not_le.mpr hless)
  | first hparted =>
    have hdeep : limit < s.stack.peak := hmaximum ▸ hparted.deeper.of_ok hs
    have hfits : fitsMemory L.configuration.segmentSize entryBytes = true :=
      (hready limit).fits_iff.symm.trans hparted.fits
    obtain ⟨others, t, ht⟩ := (hready limit).exists_replies hfits hknown
    refine ⟨others, t, ht, hpeak ht, fun hle => absurd hle (Nat.not_le.mpr hdeep), fun _ => ?_⟩
    exact hparted.delaying.of_ok ht
  | second hparted =>
    have hpos : 0 < s.delays := hparted.delaying.of_ok hs
    omega

/-- Without a bound this run gets three entries deep. -/
theorem peak_is_tight_sample :
    let L : Launch (Unit × List Notice) := sample 0 (some (Watcher.logged ⟨.silent, ()⟩))
    let marks : MarkTable := ThingTable.set {} ⟨.object, 2⟩ (.marked .gray)
    let steps : List Step := [.call (.unnamed ⟨.object, 0⟩), .slice (.work 1), .slice .unlimited]
    L.Gentle ∧ L.graph.Numbered ∧ (∀ step ∈ steps, (Command.step step).KnownOn L.graph) ∧
    fitsMemory L.configuration.segmentSize entryBytes = true ∧
    ∃ answers s, Step.replies L.graph steps ((L.bounded 0).startWith marks) = .ok answers s ∧
      s.statistics.peakDepth = 3 ∧ ∀ limit, 1 ≤ limit → ∃ others t,
        Step.replies L.graph steps ((L.bounded limit).startWith marks) = .ok others t ∧
        t.statistics.peakDepth ≤ limit ∧
        (s.statistics.peakDepth ≤ limit →
          others = answers ∧ t.Repeats s ∧ t.statistics.delayed = 0) ∧
        (limit < s.statistics.peakDepth → 0 < t.statistics.delayed) := by
  intro L marks steps
  have hgentle : L.Gentle := by
    intro held hheld entry memory
    obtain rfl := Option.some.inj hheld
    rfl
  have hnumbered : L.graph.Numbered := fun kind => by cases kind <;> decide +kernel
  have hknown : ∀ step ∈ steps, (Command.step step).KnownOn L.graph := by decide +kernel
  have hfits : fitsMemory L.configuration.segmentSize entryBytes = true := by decide
  obtain ⟨answers, s, hs, hdeep⟩ : ∃ answers s,
      Step.replies L.graph steps ((L.bounded 0).startWith marks) = .ok answers s ∧
      s.statistics.peakDepth = 3 := Yields.exists_post (by decide +kernel)
  have htight := (L.peak_is_tight hgentle hnumbered marks hknown).2 answers s hs
  exact ⟨hgentle, hnumbered, hknown, hfits, answers, s, hs, hdeep, htight⟩

end Launch

end MarkPhase
