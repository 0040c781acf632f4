import MarkPhase.Proofs.Erasures
import MarkPhase.Proofs.Settlements

/-!
Accounts of whole sessions. They are kept by every unit of work, from slice to slice. A
slice that is cut short may put off an object that has been shaded and not been scanned.
When nothing is left to do, the chronicle alone tells what has been done.
-/

namespace MarkPhase

variable {ω : Type} {B : Basis}

namespace Basis

open ChronM

/-- The accounts from the end of a slice on. -/
def beyond (B : Basis) : Basis :=
  { B with within := False }

theorem Balanced.beyond {hand : Multiset Due} {c : Chronicle ω} (h : B.Balanced hand c) :
    B.beyond.Balanced hand c :=
  { h with within := False.elim }

/-- The accounts at the end of a slice. An object may have been put off where the slice was
cut short; it has been shaded and not been scanned. -/
structure Ends (B : Basis) (done : Bool) (hand : Multiset Due) (c : Chronicle ω) : Prop where
  balanced : B.beyond.Balanced hand c
  postponed : B.within → ∀ id, .postponed id ∈ c.events → done = false ∧ B.Newly id.thing c

theorem Balanced.ends {hand : Multiset Due} {c : Chronicle ω} (h : B.Balanced hand c)
    (done : Bool) : B.Ends done hand c :=
  ⟨h.beyond, fun hwithin id hmem => absurd hmem (h.within hwithin id)⟩

theorem Ends.balanced_of_done {hand : Multiset Due} {c : Chronicle ω} (h : B.Ends true hand c) :
    B.Balanced hand c :=
  { h.balanced with
    within := fun hwithin id hmem => Bool.noConfusion (h.postponed hwithin id hmem).1 }

/-! Slices. -/

theorem settles_process (entry : StackEntry) :
    B.Settles (process B.graph entry : ChronM ω (Option ObjectId)) (entry.dues B.graph)
      B.Found := by
  cases entry with
  | object id => exact settles_scanObject id
  | values range => exact settles_scanRange range
  | typeObject id => exact (settles_scanTypeObject id).bind fun _ => .nothing
  | xml id => exact (settles_scanXml id).bind fun _ => .nothing
  | rope id => exact .throw _

theorem settles_advance (found : Option ObjectId) :
    B.Settles (advance B.graph found : ChronM ω (Option ObjectId)) (Due.scanOf found)
      B.Found := by
  cases found with
  | some id => exact settles_scanObject id
  | none =>
    refine settles_popEntry.bind fun entry => ?_
    cases entry with
    | none => exact .nothing
    | some entry => exact settles_process entry

private theorem Ends.of_eq {done : Bool} {hand : Multiset Due} {c d : Chronicle ω}
    (h : B.Ends done hand c) (hstack : d.stack = c.stack) (hdelayed : d.delayed = c.delayed)
    (hmarks : d.marks = c.marks) (hevents : d.events = c.events)
    (hsighted : d.sighted = c.sighted) : B.Ends done hand d where
  balanced := h.balanced.of_eq hstack hdelayed hmarks hevents hsighted
  postponed hwithin id hmem := by
    obtain ⟨hdone, hold, hmarked, hscanned⟩ := h.postponed hwithin id (hevents ▸ hmem)
    exact ⟨hdone, hold, hmarks ▸ hmarked, hevents ▸ hscanned⟩

/-- An object that was found when the slice is cut short goes back on the stack. -/
private theorem Found.yields_postpone {id : ObjectId} {hand : Multiset Due} {c : Chronicle ω}
    (h : B.Found (some id) hand c) :
    Yields (do tell (.postponed id); pushEntry (.object id) : ChronM ω Unit) c
      (fun _ => B.Ends false hand) fun _ _ => True := by
  obtain ⟨hbalanced, hnewly⟩ := h
  -- That nothing has been put off is no part of the accounts from here on.
  have htold : B.beyond.Balanced ({.scan id.thing} + hand)
      { c with events := .postponed id :: c.events } := by
    have hsettles := settles_tell (B := B.beyond) (ω := ω) (.postponed id) nofun nofun nofun
    have hbeyond := hbalanced.beyond
    rw [← zero_add (Due.scanOf (some id) + hand)] at hbeyond
    exact (clear_iff (a := ())).mp (hsettles _ c hbeyond)
  rw [yields_bind, yields_tell]
  refine ((settles_pushEntry (.object id) hand _ htold).and
    (spares_pushEntry (.object id) _)).mono (fun _ d hend => ?_) fun _ _ _ => trivial
  obtain ⟨hclear, hspares⟩ := hend
  refine ⟨clear_iff.mp hclear, fun hwithin other hmem => ⟨rfl, ?_⟩⟩
  rcases List.mem_cons.mp (hspares.postponed other hmem) with heq | hold
  · obtain rfl := Event.postponed.inj heq
    exact hspares.newly { hnewly other rfl with
      notScanned := fun hmem => (hnewly other rfl).notScanned
        ((List.mem_cons.mp hmem).resolve_left nofun) }
  · exact absurd hold (hbalanced.within hwithin other)

/-- The budget has run out. -/
private theorem Found.yields_cut {found : Option ObjectId} {hand : Multiset Due}
    {c : Chronicle ω} (h : B.Found found hand c) (budget : Budget) :
    Yields (do
      if let some id := found then
        tell (.postponed id)
        pushEntry (.object id)
      quietly (do MarkM.record (.overBudget (← get).stack.size))
      return (false, budget) : ChronM ω (Bool × Budget)) c
      (fun answer c => B.Ends answer.1 hand c ∧ (answer.1 = true → c.stack.items = []))
      fun _ _ => True := by
  have hrecorded : ∀ {d : Chronicle ω}, B.Ends false hand d →
      Yields (do
        quietly (do MarkM.record (.overBudget (← get).stack.size))
        return (false, budget) : ChronM ω (Bool × Budget)) d
        (fun answer c => B.Ends answer.1 hand c ∧ (answer.1 = true → c.stack.items = []))
        fun _ _ => True := by
    intro d hends
    rw [yields_bind, yields_quietly, yields_bind, yields_get, MarkM.record, yields_modify]
    exact ⟨hends.of_eq rfl rfl rfl rfl rfl, Bool.noConfusion⟩
  cases found with
  | none =>
    have hbalanced := h.1
    rw [Due.scanOf_none, zero_add] at hbalanced
    exact hrecorded (hbalanced.ends false)
  | some id =>
    have hpostponed := h.yields_postpone
    rw [yields_bind, yields_tell] at hpostponed
    rw [yields_bind, yields_tell, yields_bind]
    exact hpostponed.imp fun _ _ => hrecorded

theorem settles_drainStack (units : Nat) (found : Option ObjectId) (budget : Budget) :
    B.Settles (drainStack B.graph units found budget : ChronM ω (Bool × Budget)) (Due.scanOf found)
      fun answer hand c => B.Ends answer.1 hand c ∧ (answer.1 = true → c.stack.items = []) := by
  induction units generalizing found budget with
  | zero => exact .throw _
  | succ units ih =>
    intro hand c h
    rw [drainStack, yields_bind, yields_quietly, yields_get]
    refine yields_ite (fun hend => ?_) fun _ => ?_
    · simp only [Bool.and_eq_true, Option.isNone_iff_eq_none] at hend
      obtain ⟨rfl, hempty⟩ := hend
      rw [Due.scanOf_none, zero_add] at h
      exact ⟨h.ends true, fun _ => h.stack.isEmpty_iff.mp hempty⟩
    · rw [yields_bind]
      refine (settles_advance found hand c h).imp fun next d hfound => ?_
      exact yields_ite (fun _ => hfound.yields_cut _) fun _ => ih next _ hand d hfound.1

theorem settles_drainDelayed (units : Nat) (budget : Budget) :
    B.Settles (drainDelayed B.graph units budget : ChronM ω (Bool × Budget)) 0 B.Clear := by
  induction units generalizing budget with
  | zero => exact .throw _
  | succ units ih =>
    refine settles_popDelayed.bind fun next => ?_
    cases next with
    | none => exact .pure rfl
    | some thing =>
      refine (settles_record (.resumedThing thing) _).bind fun _ => ?_
      refine (settles_noteScan thing).bind fun _ => ?_
      refine (settles_follow fun child _ => settles_pushThing child).bind fun _ => ?_
      exact .ite (fun _ => .pure rfl) fun _ => ih _

private theorem settles_drainRounds (units rounds : Nat) (budget : Budget) :
    B.Settles (drainRounds B.graph units rounds budget : ChronM ω Bool) 0
      fun done hand c => B.Ends done hand c ∧
        (done = true → c.stack.items = [] ∧ c.delayed.things = []) := by
  induction rounds generalizing budget with
  | zero => exact .throw _
  | succ rounds ih =>
    intro hand c h
    rw [drainRounds, yields_bind]
    refine (settles_drainStack units none budget hand c h).imp fun answer d hend => ?_
    obtain ⟨stackDone, budget₁⟩ := answer
    obtain ⟨hends, hempty⟩ := hend
    cases stackDone with
    | false => exact ⟨hends, Bool.noConfusion⟩
    | true =>
      have hbalanced := hends.balanced_of_done
      refine yields_ite (fun hfalse => by cases hfalse) fun _ => ?_
      rw [yields_bind, yields_quietly, yields_get]
      refine yields_ite (fun hnone => ?_) fun _ => ?_
      · rw [yields_bind, yields_quietly, MarkM.record, yields_modify]
        exact ⟨hends.of_eq rfl rfl rfl rfl rfl, fun _ =>
          ⟨hempty rfl, DelayedList.Tidy.isEmpty_iff.mp hnone⟩⟩
      · rw [yields_bind, yields_quietly, MarkM.record, yields_modify, yields_bind]
        have hrecorded : B.Balanced (0 + hand)
            { d with journal := d.journal.push (.delayedPhase d.delayed.size) } := by
          rw [zero_add]
          exact hbalanced.of_eq rfl rfl rfl rfl rfl
        refine (settles_drainDelayed units budget₁ hand _ hrecorded).imp fun answer e hclear => ?_
        obtain ⟨delayedDone, budget₂⟩ := answer
        cases delayedDone with
        | false => exact ⟨(clear_iff.mp hclear).ends false, Bool.noConfusion⟩
        | true =>
          refine yields_ite (fun hfalse => by cases hfalse) fun _ => ?_
          exact ih budget₂ hand e hclear

private theorem settles_workBound :
    B.Settles (quietly (MarkM.workBound B.graph) : ChronM ω Nat) 0 (B.Left fun _ => 0) := by
  refine settles_aside (fun s => ?_) 0
  rw [MarkM.workBound, yields_bind, yields_get, yields_pure]
  exact ⟨rfl, rfl, rfl⟩

/-- A slice keeps the accounts, and it leaves nothing if it says so. -/
theorem settles_drain (budget : Budget) : B.Settles (drain B.graph budget : ChronM ω Bool) 0
    fun done hand c => B.Ends done hand c ∧
      (done = true → c.stack.items = [] ∧ c.delayed.things = []) := by
  have hcounted : B.Settles (quietly (modify fun s => { s with slices := s.slices + 1 }) :
      ChronM ω Unit) 0 (B.Left fun _ => 0) := by
    refine settles_aside (fun s => ?_) 0
    exact yields_modify.mpr ⟨rfl, rfl, rfl⟩
  refine hcounted.bind fun _ => settles_workBound.bind fun units => ?_
  exact settles_drainRounds units units budget

/-! Sessions. -/

theorem Balanced.of_beyond {hand : Multiset Due} {c : Chronicle ω}
    (h : B.beyond.Balanced hand c) (hwithin : ¬ B.within) : B.Balanced hand c :=
  { h with within := fun hslice => absurd hslice hwithin }

theorem settles_makeStep (hwithin : ¬ B.within) (step : Step) :
    B.Settles (makeStep B.graph step : ChronM ω Unit) 0 B.Clear := by
  cases step with
  | call request => exact settles_make request
  | slice budget =>
    intro hand c h
    rw [makeStep, yields_bind]
    refine (settles_drain budget hand c h).imp fun done d hend => ?_
    rw [yields_pure, clear_iff]
    exact hend.1.balanced.of_beyond hwithin
  | delayedSlice budget =>
    refine Settles.bind ?_ fun _ => .pure rfl
    exact settles_workBound.bind fun units => settles_drainDelayed units budget

theorem settles_steps (hwithin : ¬ B.within) (steps : List Step) :
    B.Settles (steps.forM (makeStep B.graph) : ChronM ω Unit) 0 B.Clear := by
  induction steps with
  | nil => exact .pure rfl
  | cons step steps ih => exact (settles_makeStep hwithin step).bind fun _ => ih

/-! Where accounts begin and end. -/

theorem exists_entry_of_due {g : Graph} {items : List StackEntry} {thing : Thing}
    (h : 0 < (items.map (StackEntry.dues g)).sum.count (.scan thing)) :
    ∃ entry ∈ items, .scan thing ∈ entry.dues g := by
  induction items with
  | nil => simp at h
  | cons entry items ih =>
    rw [List.map_cons, List.sum_cons, Multiset.count_add] at h
    by_cases hfirst : 0 < (entry.dues g).count (.scan thing)
    · exact ⟨entry, List.mem_cons_self .., Multiset.count_pos.mp hfirst⟩
    · obtain ⟨other, hmem, hdue⟩ := ih (by omega)
      exact ⟨other, List.mem_cons_of_mem _ hmem, hdue⟩

theorem owner_of_due {g : Graph} {entry : StackEntry} {thing : Thing}
    (h : .scan thing ∈ entry.dues g) : entry.owner = thing ∧ ∀ range, entry ≠ .values range := by
  cases entry with
  | values range =>
    have hpos := Multiset.count_pos.mpr h
    rw [StackEntry.dues, Due.count_scan_attempts] at hpos
    cases hpos
  | _ =>
    exact ⟨(Due.scan.inj (Multiset.mem_singleton.mp h)).symm, fun range heq => by cases heq⟩

/-- Accounts may be opened wherever all that is left to do belongs to marked things. -/
theorem balanced_start {s : Marking ω} (hstack : s.stack.Tidy) (hdelayed : s.delayed.Tidy)
    (howners : ∀ entry ∈ s.stack.items, s.marks.isMarked entry.owner = true)
    (hwaiting : ∀ thing ∈ s.delayed.things, s.marks.isMarked thing = true)
    (hmarks : B.marks = s.marks)
    (hcalm : B.calm → s.stack.items = [] ∧ s.delayed.things = []) :
    B.Balanced 0 ({ toMarking := s } : Chronicle ω) := by
  have hdues : ∀ due, (0 + Chronicle.dues B.graph ({ toMarking := s } : Chronicle ω)).count due =
      (s.stack.items.map (StackEntry.dues B.graph)).sum.count due := by
    intro due
    rw [zero_add]
    exact congrArg _ (zero_add _)
  have hfresh : ∀ thing, s.marks.isMarked thing = false →
      (s.stack.items.map (StackEntry.dues B.graph)).sum.count (.scan thing) = 0 ∧
        thing ∉ s.delayed.things := by
    intro thing hnew
    constructor
    · by_contra hdue
      obtain ⟨entry, hmem, hscan⟩ := exists_entry_of_due (Nat.pos_of_ne_zero hdue)
      have hmarked := howners entry hmem
      rw [(owner_of_due hscan).1, hnew] at hmarked
      cases hmarked
    · intro hmem
      rw [hwaiting thing hmem] at hnew
      cases hnew
  refine ⟨hstack, hdelayed, fun thing hold => hmarks ▸ hold, fun thing hnew => ?_,
    fun thing hnew => ?_, fun id hnew hmarked => ?_, fun hquiet _ => ?_,
    fun _ _ => List.not_mem_nil, rfl⟩
  · rw [hdues]
    exact ⟨(hfresh thing hnew).1, (hfresh thing hnew).2, rfl⟩
  · rw [hdues]
    change _ + s.delayed.things.count thing ≤ 1 + 0
    rcases hnew with hquiet | hnew
    · obtain ⟨hitems, hthings⟩ := hcalm hquiet
      simp [hitems, hthings]
    · obtain ⟨hnone, hwaits⟩ := hfresh thing (hmarks ▸ hnew)
      rw [hnone, List.count_eq_zero.mpr hwaits]
      exact Nat.zero_le _
  · rw [hmarks] at hnew
    change s.marks.isMarked id.thing = true at hmarked
    rw [hnew] at hmarked
    cases hmarked
  · obtain ⟨hitems, hthings⟩ := hcalm hquiet
    refine ⟨hthings, fun parent child => ?_⟩
    rw [hdues, hitems]
    exact (Nat.zero_mul _).symm

namespace Balanced

variable {c : Chronicle ω}

end Balanced

end Basis

/-! What a generic tracer is shown. -/

namespace Graph

end Graph

namespace Launch

variable {L : Launch ω} {marks : MarkTable} {steps : List Step} {budget : Budget} {s t : Marking ω}

/-- Accounts may be opened before the first step. -/
theorem balanced_start (B : Basis) :
    B.Balanced 0 ({ toMarking := { L.start with marks := B.marks } } : Chronicle ω) := by
  obtain ⟨hitems, htidy, -, hdelayed, -⟩ := L.start_idle
  have hthings : L.start.delayed.things = [] := hdelayed ▸ rfl
  refine Basis.balanced_start htidy (hdelayed ▸ DelayedList.tidy_empty) ?_ ?_ rfl
    fun _ => ⟨hitems, hthings⟩
  · intro entry hmem
    rw [hitems] at hmem
    cases hmem
  · intro other hmem
    rw [hthings] at hmem
    cases hmem

/-- Nothing is scanned but what is marked at that time. -/
theorem Leads.exists_sighted (h : L.Leads steps s) : ∃ c : Chronicle ω,
    steps.forM (ChronM.makeStep L.graph) { toMarking := L.start } = .ok () c ∧
    c.toMarking = s ∧ c.sighted = true := by
  obtain ⟨c, hc, hcs⟩ := (ChronM.erases_steps L.graph steps).exists_ok
    (c := { toMarking := L.start }) h
  let B : Basis := ⟨L.graph, L.sound, L.ledger.marks, False, False.elim, False⟩
  have hbalanced : B.Balanced 0 c := by
    have hsession := (Basis.settles_steps (B := B) id steps 0 _ (L.balanced_start B)).of_ok hc
    rwa [Basis.clear_iff] at hsession
  exact ⟨c, hc, hcs, hbalanced.sighted⟩

end Launch

end MarkPhase
