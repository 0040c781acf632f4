import MarkPhase.Proofs.Audits
import MarkPhase.Proofs.PendingWork

/-!
How often things are scanned and delayed. An observer that keeps a log is told of each
scan, and the journal of the heap tells of each delay. The accounts of the outline behind
a state say how the two go together once nothing is left to do. That a thing is marked at
the time of its scan is seen by a marker that keeps a chronicle.
-/

namespace MarkPhase

variable {ω : Type}

/-- An observer that keeps a log of what it is told and asked, the oldest first. -/
def Observer.logged (observer : Observer ω) : Observer (ω × List Notice) where
  onScan thing memory := (observer.onScan thing memory.1, memory.2 ++ [.scanned thing])
  refuses entry memory :=
    let (refused, after) := observer.refuses entry memory.1
    (refused, after, memory.2 ++ [.asked entry])

/-- A watcher that starts with an empty log. -/
def Watcher.logged (watcher : Watcher ω) : Watcher (ω × List Notice) where
  observer := watcher.observer.logged
  memory := (watcher.memory, [])

/-- The log of a marker that is watched by an observer with a log. -/
def Marking.log (s : Marking (ω × List Notice)) : List Notice :=
  (s.watcher.map fun watcher => watcher.memory.2).getD []

/-- The refused entries whose owners were delayed, as the journal has them. -/
def Ledger.refusals (ledger : Ledger) : List StackEntry :=
  ledger.journal.toList.filterMap Record.refused?

/-- An unowned base shape. -/
def Graph.Unowned (g : Graph) (thing : Thing) : Prop :=
  ∃ id cell, id.thing = thing ∧ g.baseShape? id = some cell ∧ cell.twin = none

/-- What has been delayed in the course of a session, if the entries `refused` were refused in
it and nothing is left to do. -/
structure Marking.Deferrals (g : Graph) (refused : List StackEntry) (s : Marking ω) : Prop where
  delayed_once : (refused.map StackEntry.owner).Nodup
  delayed_count : s.toMarker.statistics.delayed = (refused.map StackEntry.owner).length
  delayed_kind : ∀ entry ∈ refused, entry.owner.kind ∈ [Kind.object, .typeObject, .xml] ∨
    ∃ id string, entry.owner = id.thing ∧ g.string? id = some string ∧ string.isRope = true

/-- How often things have been scanned in the same course. -/
structure Marking.Tallied (g : Graph) (refused : List StackEntry) (s : Marking (ω × List Notice)) :
    Prop where
  scanned_marked : ∀ thing, .scanned thing ∈ s.log → s.marks.isMarked thing = true
  scanned_once : ∀ thing, s.marks.isMarked thing = true →
    ¬ (thing.kind = .object ∧ thing ∈ refused.map StackEntry.owner) → ¬ g.Unowned thing →
    s.log.count (.scanned thing) = 1
  /-- A delayed object is scanned once, or twice if it had been scanned before a range of its
  values was refused. -/
  scanned_delayed : ∀ id : ObjectId, id.thing ∈ refused.map StackEntry.owner →
    s.log.count (.scanned id.thing) = 1 ∨
      (s.log.count (.scanned id.thing) = 2 ∧ ∃ range before after, .values range ∈ refused ∧
        range.owner = id ∧ s.log = before ++ .asked (.values range) :: after ∧
        .scanned id.thing ∈ before)
  /-- An unowned base shape is scanned once, unless it was marked as the twin of a scanned one. -/
  scanned_unowned : ∀ thing, s.marks.isMarked thing = true → g.Unowned thing →
    s.log.count (.scanned thing) = 1 ∨
      (s.log.count (.scanned thing) = 0 ∧ ∃ base twin cell, g.baseShape? base = some cell ∧
        cell.twin = some twin ∧ twin.thing = thing ∧ .scanned base.thing ∈ s.log)

theorem StackEntry.owner_of_isValues {entry : StackEntry} (h : entry.isValues = true) :
    ∃ range, entry = .values range := by
  cases entry with
  | values range => exact ⟨range, rfl⟩
  | _ => cases h

namespace Outline

variable {o : Outline} {terrain : Terrain} {thing : Thing}

/-- A thing that was delayed because of its values is an object. -/
theorem valueDelays_eq_zero_of
    (h : ¬ (thing.kind = .object ∧ thing ∈ o.delays.map StackEntry.owner)) :
    o.valueDelays thing = 0 := by
  unfold valueDelays
  rw [List.countP_eq_zero]
  intro entry hentry hvalues
  simp only [Bool.and_eq_true, beq_iff_eq] at hvalues
  obtain ⟨hvalues, rfl⟩ := hvalues
  obtain ⟨range, rfl⟩ := entry.owner_of_isValues hvalues
  exact h ⟨rfl, List.mem_map_of_mem hentry⟩

theorem valueDelays_le_one (hnodup : (o.delays.map StackEntry.owner).Nodup) (thing : Thing) :
    o.valueDelays thing ≤ 1 := by
  have hcount := List.nodup_iff_count_le_one.mp hnodup thing
  rw [List.count_eq_countP, List.countP_map] at hcount
  refine le_trans (List.countP_mono_left fun entry _ hboth => ?_) hcount
  simp only [Bool.and_eq_true] at hboth
  exact hboth.2

/-- A twin that was marked along with an owned base shape is unowned. -/
theorem Placed.unowned (h : o.Placed terrain) (hthing : thing ∈ o.shaded) :
    terrain.graph.Unowned thing := by
  obtain ⟨-, base, twin, cell, hbase, htwin, rfl, -⟩ := h.shaded thing hthing
  obtain ⟨other, hother, hagrees⟩ := (terrain.sound.baseShape hbase).2 twin htwin
  exact ⟨twin, other, rfl, hother, hagrees.unowned⟩

/-- Only marked things are scanned. -/
theorem Counted.marked_of_scanned (h : o.Counted) (hplaced : o.Placed terrain)
    (hthing : .scanned thing ∈ o.notices) : o.Marked thing := by
  by_contra hnew
  have hscans : 0 < o.scans thing := List.count_pos_iff.mpr hthing
  have hvalues := valueDelays_eq_zero_of fun hdelayed => by
    obtain ⟨entry, hentry, heq⟩ := List.mem_map.mp hdelayed.2
    exact (hplaced.of_not_marked hnew).2.1 entry hentry heq
  have hmarks : o.marks.isMarked thing = false := by simpa [Marked] using hnew
  have haccount := h.account thing
  rw [hvalues, hmarks] at haccount
  simp only [Bool.toNat_false] at haccount
  omega

/-- The account of a marked thing once nothing is left to do. -/
theorem Counted.settled (h : o.Counted) (hwork : o.work = 0) (hdelayed : o.delayed = [])
    (hmarked : o.Marked thing) :
    o.scans thing + o.shaded.count thing = 1 + o.valueDelays thing := by
  have haccount := h.account thing
  rw [hwork, hdelayed, Multiset.count_zero, List.count_nil, show o.marks.isMarked thing = true from
    hmarked, Bool.toNat_true] at haccount
  omega

end Outline

namespace Setting

/-- The log of an observer that keeps one is what the outline has. -/
theorem Tracks.log_eq {S : Setting (ω × List Notice)} {hand : List Duty} {waiting : List StringId}
    {o : Outline} {s : Marking (ω × List Notice)} (h : S.Tracks hand waiting o s)
    {watcher : Watcher ω} (hwatcher : S.start.watcher = some watcher.logged) :
    s.log = o.notices := by
  have hfold : ∀ (notices : List Notice) (memory : ω) (log : List Notice),
      (notices.foldl Watcher.hear ⟨watcher.observer.logged, memory, log⟩).memory.2 =
        log ++ notices := by
    intro notices
    induction notices with
    | nil => intro memory log; exact (List.append_nil log).symm
    | cons notice notices ih =>
      intro memory log
      rw [List.foldl_cons, List.append_cons]
      cases notice with
      | scanned thing => exact ih _ _
      | asked entry => exact ih _ _
  rw [Marking.log, h.watcher, hwatcher]
  exact hfold o.notices watcher.memory []

/-- Without an observer there is no log. -/
theorem Tracks.log_nil {S : Setting (ω × List Notice)} {hand : List Duty} {waiting : List StringId}
    {o : Outline} {s : Marking (ω × List Notice)} (h : S.Tracks hand waiting o s)
    (hwatcher : S.start.watcher = none) : s.log = [] := by
  rw [Marking.log, h.watcher, hwatcher]
  rfl

end Setting

/-! What the outline behind a state says once nothing is left to do. -/

namespace Setting

theorem Tracks.deferrals {S : Setting ω} {o : Outline} {s : Marking ω} (h : S.Tracks [] [] o s)
    (hbalanced : o.Balanced S.toTerrain) (hstart : S.start.delays = 0) :
    s.Deferrals S.graph o.delays where
  delayed_once := hbalanced.deferred.nodup
  delayed_count := by
    have hdelays := h.delays
    rw [hstart, Nat.zero_add] at hdelays
    rw [List.length_map]
    exact hdelays
  delayed_kind := by
    intro entry hentry
    have hsensible := hbalanced.placed.sensible entry hentry
    cases entry with
    | rope id =>
      obtain ⟨string, hid, hrope⟩ := hsensible
      exact Or.inr ⟨id, string, rfl, hid, hrope⟩
    | _ => exact Or.inl (by simp [StackEntry.owner, Ref.thing])

variable {S : Setting (ω × List Notice)} {o : Outline} {s : Marking (ω × List Notice)}

theorem Tracks.tallied_of_balanced (h : S.Tracks [] [] o s) (hbalanced : o.Balanced S.toTerrain)
    (hlog : s.log = o.notices) (hwork : o.work = 0) (hdelayed : o.delayed = []) :
    s.Tallied S.graph o.delays where
  scanned_marked := by
    rw [hlog, h.marks]
    exact fun thing => hbalanced.counted.marked_of_scanned hbalanced.placed
  scanned_once := by
    rw [hlog, h.marks]
    intro thing hmarked hobject hunowned
    have haccount := hbalanced.counted.settled hwork hdelayed hmarked
    have hshaded : o.shaded.count thing = 0 :=
      List.count_eq_zero.mpr fun hmem => hunowned (hbalanced.placed.unowned hmem)
    rwa [hshaded, Outline.valueDelays_eq_zero_of hobject] at haccount
  scanned_delayed := by
    rw [hlog]
    intro id hid
    obtain ⟨entry, hentry, howner⟩ := List.mem_map.mp hid
    have hmarked : o.Marked id.thing := howner ▸ hbalanced.placed.delay entry hentry
    have haccount := hbalanced.counted.settled hwork hdelayed hmarked
    have hshaded : o.shaded.count id.thing = 0 := by
      refine List.count_eq_zero.mpr fun hmem => ?_
      obtain ⟨other, -, heq, -⟩ := hbalanced.placed.unowned hmem
      exact absurd (congrArg Thing.kind heq) (by simp [Ref.thing])
    rw [hshaded] at haccount
    rcases Nat.eq_zero_or_pos (o.valueDelays id.thing) with hzero | hpos
    · rw [hzero] at haccount
      exact Or.inl haccount
    · have hone := Outline.valueDelays_le_one hbalanced.deferred.nodup id.thing
      obtain ⟨value, hvalue, hboth⟩ := List.countP_pos_iff.mp hpos
      simp only [Bool.and_eq_true, beq_iff_eq] at hboth
      obtain ⟨range, rfl⟩ := value.owner_of_isValues hboth.1
      obtain rfl : range.owner = id := Ref.thing_injective hboth.2
      obtain ⟨before, after, hnotices, hbefore⟩ := hbalanced.deferred.witnessed range hvalue
      refine Or.inr ⟨?_, range, before, after, hvalue, rfl, hnotices, hbefore⟩
      change o.scans range.owner.thing = 2
      omega
  scanned_unowned := by
    rw [hlog, h.marks]
    intro thing hmarked hunowned
    have haccount := hbalanced.counted.settled hwork hdelayed hmarked
    have hvalues : o.valueDelays thing = 0 := by
      refine Outline.valueDelays_eq_zero_of fun hobject => ?_
      obtain ⟨id, -, rfl, -⟩ := hunowned
      exact absurd hobject.1 (by simp [Ref.thing])
    rw [hvalues] at haccount
    rcases Nat.eq_zero_or_pos (o.shaded.count thing) with hzero | hpos
    · rw [hzero] at haccount
      exact Or.inl haccount
    · obtain ⟨-, base, twin, cell, hbase, htwin, heq, hscanned⟩ :=
        hbalanced.placed.shaded thing (List.count_pos_iff.mp hpos)
      refine Or.inr ⟨?_, base, twin, cell, hbase, htwin, heq, hscanned⟩
      change o.scans thing = 0
      omega

end Setting

namespace Launch

variable {L : Launch (ω × List Notice)} {steps : List Step} {s t : Marking (ω × List Notice)}

/-- Whatever a marker has been asked to do, what it tells of was marked at that time and still
is. Once nothing is left, no thing has been delayed twice, and the delays and the twins tell how
often each thing has been scanned. -/
theorem Leads.tallied (h : L.Leads steps s) {watcher : Option (Watcher ω)}
    (hwatcher : L.watcher = watcher.map Watcher.logged) :
    (∃ c, steps.forM (ChronM.makeStep L.graph) { toMarking := L.start } = .ok () c ∧
      c.toMarking = s ∧ c.sighted = true) ∧
    (∀ thing, .scanned thing ∈ s.log → s.marks.isMarked thing = true) ∧
    ∀ budget t, MarkM.drain L.graph budget s = .ok true t →
      ∃ refused, t.refusals = L.ledger.refusals ++ refused ∧ t.Deferrals L.graph refused ∧
        (watcher.isSome = true → t.Tallied L.graph refused) := by
  refine ⟨h.exists_sighted, ?_, ?_⟩
  · obtain ⟨o, htracks, hbalanced, -⟩ := h.exists_outline
    cases watcher with
    | none =>
      rw [htracks.log_nil hwatcher]
      exact fun thing hmem => absurd hmem List.not_mem_nil
    | some watcher =>
      rw [htracks.log_eq hwatcher, htracks.marks]
      exact fun thing => hbalanced.counted.marked_of_scanned hbalanced.placed
  · intro budget t hdrain
    obtain ⟨o, htracks, hbalanced, -, hwork, hdelayed⟩ := h.exists_outline_of_drain hdrain
    refine ⟨o.delays, htracks.journal, htracks.deferrals hbalanced L.start_idle.2.2.2.2, ?_⟩
    intro hsome
    obtain ⟨held, rfl⟩ := Option.isSome_iff_exists.mp hsome
    exact htracks.tallied_of_balanced hbalanced (htracks.log_eq hwatcher) hwork hdelayed

/-- A run in which two things are delayed. -/
theorem tallied_sample :
    let watcher : Option (Watcher Unit) := some ⟨.rangeless, ()⟩
    let L : Launch (Unit × List Notice) := sample 1 (watcher.map Watcher.logged)
    let steps : List Step := [.call (.unnamed ⟨.object, 0⟩), .slice (.work 1)]
    ∃ c s t, L.Leads steps s ∧ MarkM.drain L.graph .unlimited s = .ok true t ∧
      steps.forM (ChronM.makeStep L.graph) { toMarking := L.start } = .ok () c ∧
      c.toMarking = s ∧ c.sighted = true ∧
      (∀ thing, .scanned thing ∈ s.log → s.marks.isMarked thing = true) ∧
      ∃ refused, t.refusals = L.ledger.refusals ++ refused ∧ t.Deferrals L.graph refused ∧
        t.toMarker.statistics.delayed = 2 ∧ t.Tallied L.graph refused := by
  intro watcher L steps
  obtain ⟨_, s, _, t, hs, hdrain, rfl, hdelayed⟩ : ∃ a s done t,
      steps.forM (Step.make L.graph) L.start = .ok a s ∧
        MarkM.drain L.graph .unlimited s = .ok done t ∧ done = true ∧
        t.toMarker.statistics.delayed = 2 := Yields.exists_ends (by decide +kernel)
  have hleads : L.Leads steps s := hs
  have hwatcher : L.watcher = watcher.map Watcher.logged := rfl
  obtain ⟨⟨c, hc, hcs, hsighted⟩, hscanned, hdrained⟩ := hleads.tallied hwatcher
  obtain ⟨refused, hrefusals, hdeferrals, htallied⟩ := hdrained .unlimited t hdrain
  exact ⟨c, s, t, hleads, hdrain, hc, hcs, hsighted, hscanned, refused, hrefusals, hdeferrals,
    hdelayed, htallied rfl⟩

end Launch

end MarkPhase
