import MarkPhase.Proofs.Counting
import MarkPhase.Proofs.Units

/-!
Drains. Every unit of work takes away some of the load, so a drain ends whatever is
refused on the way: it has worked off the stack and the delayed list, or its budget has
run out. The units are counted, and the load pays for all of them.
-/

namespace MarkPhase

namespace Budget

variable {budget : Budget} {units : Nat}

@[simp]
theorem isUnlimited_step : (budget.step units).isUnlimited = budget.isUnlimited := by
  simp [isUnlimited, step]

theorem isUnlimited_of_isOver (h : (budget.step units).isOver = true) :
    budget.isUnlimited = false := by
  cases hremaining : budget.remaining with
  | none => simp [isOver, step, hremaining] at h
  | some left => simp [isUnlimited, hremaining]

end Budget

/-- What `count` units of work on a budget have done to an outline. Each of them has taken
away some of the load; work that is not finished has come to at least one unit, and its
budget was limited. -/
structure Outline.Spends (o o' : Outline) (g : Graph) (budget : Budget) (finished : Bool)
    (count : Nat) : Prop where
  load : o'.load g + count ≤ o.load g
  early : finished = false → 0 < count ∧ budget.isUnlimited = false

namespace Outline.Spends

variable {o o₁ o₂ : Outline} {g : Graph} {budget : Budget}

theorem nothing : o.Spends o g budget true 0 :=
  ⟨Nat.le_refl _, Bool.noConfusion⟩

theorem one (hload : o₁.load g < o.load g) : o.Spends o₁ g budget true 1 :=
  ⟨hload, Bool.noConfusion⟩

/-- The budget runs out with a unit. -/
theorem last (hload : o₁.load g < o.load g) (hover : (budget.step 1).isOver = true) :
    o.Spends o₁ g budget false 1 :=
  ⟨hload, fun _ => ⟨Nat.one_pos, Budget.isUnlimited_of_isOver hover⟩⟩

theorem append {first second : Nat} {rest : Budget} {finished : Bool}
    (h : o.Spends o₁ g budget true first) (h₁ : o₁.Spends o₂ g rest finished second)
    (hrest : rest.isUnlimited = budget.isUnlimited) :
    o.Spends o₂ g budget finished (first + second) where
  load := by
    have hfirst := h.load
    have hsecond := h₁.load
    omega
  early hfinished := by
    obtain ⟨hpos, hlimited⟩ := h₁.early hfinished
    exact ⟨Nat.lt_of_lt_of_le hpos (Nat.le_add_left ..), hrest ▸ hlimited⟩

end Outline.Spends

variable {ω : Type} {S : Setting ω} {o : Outline} {s : Marking ω}

namespace Setting

open MarkM

theorem Tracks.isEmpty_iff {waiting : List StringId} (h : S.Tracks [] waiting o s) :
    s.stack.isEmpty = true ↔ o.work = 0 := by
  rw [h.stack.isEmpty_iff, h.work, List.nil_append, Multiset.coe_eq_zero, Marker.stacked,
    List.map_eq_nil_iff]

/-- Work on the stack goes on until nothing is left or the budget has run out. -/
theorem Tracks.yields_countStack (units : Nat) {found : Option ObjectId} {budget : Budget}
    (h : S.Tracks (Found found) [] o s) (hguarded : o.Guarded S.toTerrain)
    (hunits : o.load S.graph < units) :
    Yields (countStack S.graph units found budget) s
      (fun (answer, count) => S.Lands o [] [] fun o' => (answer.1 = true → o'.work = 0) ∧
        answer.2.isUnlimited = budget.isUnlimited ∧
        o.Spends o' S.graph budget answer.1 count) S.Overflows := by
  induction units generalizing found budget o s with
  | zero => exact absurd hunits (Nat.not_lt_zero _)
  | succ units ih =>
    rw [countStack, yields_bind, yields_get]
    refine yields_ite (fun hend => ?_) fun hmore => ?_
    · simp only [Bool.and_eq_true, Option.isNone_iff_eq_none] at hend
      obtain ⟨rfl, hempty⟩ := hend
      exact ⟨o, .refl, h, fun _ => h.isEmpty_iff.mp hempty, rfl, .nothing⟩
    · have hwork : found = none → s.stack.items ≠ [] := by
        rintro rfl hitems
        exact hmore (by simp [h.stack.isEmpty_iff.mpr hitems])
      rw [yields_bind]
      apply (h.yields_advance hguarded hwork).imp
      intro next s₁ hend
      obtain ⟨o₁, hrun₁, h₁, hload⟩ := hend
      have hguarded₁ := hguarded.run hrun₁
      refine yields_ite (fun hover => ?_) fun hgo => ?_
      · cases next with
        | none =>
          change Yields (get >>= fun t => MarkM.record (.overBudget t.stack.size) >>= fun _ =>
            pure ((false, budget.step 1), 1)) s₁ _ _
          rw [yields_bind, yields_get, yields_bind, MarkM.record, yields_modify]
          exact ⟨o₁, hrun₁, h₁.record rfl, Bool.noConfusion, Budget.isUnlimited_step,
            .last hload hover⟩
        | some id =>
          change Yields (pushEntry (.object id) >>= fun _ => get >>= fun t =>
            MarkM.record (.overBudget t.stack.size) >>= fun _ =>
              pure ((false, budget.step 1), 1)) s₁ _ _
          have hmarked : o₁.Marked id.thing := (hguarded₁.owner (.fresh id.thing) (by
            rw [h₁.work_cons]
            exact Multiset.mem_cons_self ..)).1
          have hobject : (StackEntry.object id).isValues = false := rfl
          rw [yields_bind]
          apply (h₁.yields_pushEntry_plain (.whole hobject trivial) hmarked (by simp)).imp
          intro _ s₂ hend
          obtain ⟨o₂, hrun₂, h₂, -⟩ := hend
          rw [yields_bind, yields_get, yields_bind, MarkM.record, yields_modify]
          exact ⟨o₂, hrun₁.trans hrun₂, h₂.record rfl, Bool.noConfusion, Budget.isUnlimited_step,
            .last ((Outline.load_run hrun₂).trans_lt hload) hover⟩
      · rw [yields_bind]
        refine (ih h₁ hguarded₁ (by omega)).imp fun result t hlands => ?_
        obtain ⟨answer, count⟩ := result
        refine (hlands.imp fun o₂ _ hknown => ?_).head hrun₁
        obtain ⟨hwork, hrest, hspends⟩ := hknown
        rw [Budget.isUnlimited_step] at hrest
        rw [Nat.add_comm]
        exact ⟨hwork, hrest, (Outline.Spends.one hload).append hspends Budget.isUnlimited_step⟩

/-- The newest delayed thing leaves the list to be scanned again. -/
private theorem Tracks.yields_takeUp {α : Type} {thing : Thing} {delayed : List Thing}
    (h : S.Tracks [] [] o s) (hdelayed : o.delayed = thing :: delayed)
    {next : MarkM ω α} {post : α → Marking ω → Prop}
    (hnext : ∀ {t : Marking ω} {o' : Outline}, S.Run o o' → S.Tracks [.retracing thing] [] o' t →
      o'.load S.graph < o.load S.graph → Yields next t post S.Overflows) :
    Yields (do MarkM.record (.resumedThing thing); noteScan thing; next)
      { s with delayed := s.delayed.pop.2 } post S.Overflows := by
  have hidle : ∀ range, .reading range ∉ o.work ∧ .cut range ∉ o.work := by
    intro range
    rw [h.work, Multiset.mem_coe, Multiset.mem_coe]
    exact ⟨fun hmem => Marker.waits_of_stacked hmem, fun hmem => Marker.waits_of_stacked hmem⟩
  obtain ⟨-, hthings, htidy⟩ := h.delayedTidy.pop_cons (h.delayed.trans hdelayed)
  have hmove : S.Move o { o with
      delayed
      work := .retracing thing ::ₘ o.work
      notices := o.notices ++ [.scanned thing] } := .resume hdelayed hidle
  rw [yields_bind, MarkM.record, yields_modify, yields_bind, noteScan, yields_modify]
  refine hnext (.single hmove) ?_ ?_
  · exact { h.record (show (Record.resumedThing thing).refused? = none from rfl) with
      work := by rw [h.work]; rfl
      delayedTidy := htidy
      delayed := hthings
      watcher := h.heard (.scanned thing)
      bounded := h.bounded_of_move hmove }
  · simp [Outline.load, Outline.unmarked, hdelayed, Duty.weight]

/-- Delayed things are traced until none is left or the budget has run out. If there are
any, the load goes down. -/
theorem Tracks.yields_countDelayed (units : Nat) {budget : Budget} (h : S.Tracks [] [] o s)
    (hguarded : o.Guarded S.toTerrain) (hunits : o.load S.graph < units) :
    Yields (countDelayed S.graph units budget) s
      (fun (answer, count) => S.Lands o [] [] fun o' => (answer.1 = true → o'.delayed = []) ∧
        (o.delayed ≠ [] → 0 < count) ∧ answer.2.isUnlimited = budget.isUnlimited ∧
        o.Spends o' S.graph budget answer.1 count) S.Overflows := by
  induction units generalizing budget o s with
  | zero => exact absurd hunits (Nat.not_lt_zero _)
  | succ units ih =>
    rw [countDelayed, yields_bind, yields_modifyGet]
    cases hdelayed : o.delayed with
    | nil =>
      rw [DelayedList.Tidy.pop_nil (h.delayed.trans hdelayed)]
      exact ⟨o, .refl, h, fun _ => hdelayed, fun hne => absurd rfl hne, rfl, .nothing⟩
    | cons thing delayed =>
      obtain ⟨hpopped, -⟩ := h.delayedTidy.pop_cons (h.delayed.trans hdelayed)
      obtain ⟨-, hhome⟩ := hguarded.delayed thing (by simp [hdelayed])
      simp only [hpopped]
      refine h.yields_takeUp hdelayed fun {s₁ o₁} hrun₁ h₁ hload₁ => ?_
      have hcontains := (S.home_allowed thing hhome).contains
      refine (covers_childVisits hcontains fun child _ => covers_pushThing child).yields_then h₁
        (welcome_childVisits hhome) fun {o₂ s₂} hrun₂ h₂ hreached => ?_
      obtain ⟨o₃, hrun₃, h₃, -⟩ := h₂.discharge (.finish (done_childVisits hhome hreached))
      have hrun := (hrun₁.trans hrun₂).trans hrun₃
      have hload : o₃.load S.graph < o.load S.graph :=
        (Outline.load_run (hrun₂.trans hrun₃)).trans_lt hload₁
      refine yields_ite (fun hover => ?_) fun _ => ?_
      · exact ⟨o₃, hrun, h₃, Bool.noConfusion, fun _ => Nat.one_pos, Budget.isUnlimited_step,
          .last hload hover⟩
      · rw [yields_bind]
        refine (ih h₃ (hguarded.run hrun) (by omega)).imp fun result _ hlands => ?_
        obtain ⟨answer, count⟩ := result
        refine (hlands.imp fun o₄ _ hknown => ?_).head hrun
        obtain ⟨hnone, -, hrest, hspends⟩ := hknown
        rw [Budget.isUnlimited_step] at hrest
        refine ⟨hnone, fun _ => Nat.succ_pos count, hrest, ?_⟩
        rw [Nat.add_comm]
        exact (Outline.Spends.one hload).append hspends Budget.isUnlimited_step

/-! Slices. -/

/-- A thing that is not marked stands for four units at most, an entry and a thing in hand
for two and a delayed thing for one. -/
theorem Tracks.load_le {hand : List Duty} {waiting : List StringId}
    (h : S.Tracks hand waiting o s) :
    o.load S.graph ≤
      4 * S.graph.thingCount + 2 * (hand.length + s.stack.size) + s.delayed.size := by
  have hunmarked := o.unmarked_le S.graph
  have hweights : ∀ duties : List Duty, (duties.map Duty.weight).sum ≤ 2 * duties.length := by
    intro duties
    induction duties with
    | nil => exact Nat.le_refl 0
    | cons duty duties ih =>
      have hduty : duty.weight ≤ 2 := by
        cases duty <;> simp [Duty.weight]
      rw [List.map_cons, List.sum_cons, List.length_cons]
      omega
  have hwork : (o.work.map Duty.weight).sum ≤ 2 * (hand.length + s.stack.size) := by
    rw [h.work, h.stack.size_eq, Multiset.map_coe, Multiset.sum_coe]
    apply (hweights _).trans_eq
    rw [List.length_append, Marker.stacked, List.length_map]
  have hdelayed : o.delayed.length = s.delayed.size := by
    rw [DelayedList.size, h.delayed]
  unfold Outline.load
  omega

/-- The units that a slice may take are more than there is work. -/
theorem Tracks.yields_workBound (h : S.Tracks [] [] o s) {faults : Fault → Marking ω → Prop} :
    Yields (workBound S.graph) s (fun units t => o.load S.graph < units ∧ t = s) faults := by
  have hload := h.load_le
  refine ⟨?_, rfl⟩
  rw [List.length_nil] at hload
  omega

private theorem Tracks.yields_countRounds (units rounds : Nat) {budget : Budget}
    (h : S.Tracks [] [] o s) (hguarded : o.Guarded S.toTerrain)
    (hunits : o.load S.graph < units) (hrounds : o.load S.graph < rounds) :
    Yields (countRounds S.graph units rounds budget) s
      (fun (drained, count) => S.Lands o [] [] fun o' =>
        (drained = true → o'.work = 0 ∧ o'.delayed = []) ∧
        o.Spends o' S.graph budget drained count) S.Overflows := by
  induction rounds generalizing budget o s with
  | zero => exact absurd hrounds (Nat.not_lt_zero _)
  | succ rounds ih =>
    have hstack : S.Tracks (Found (none : Option ObjectId)) [] o s := h
    rw [countRounds, yields_bind]
    apply (hstack.yields_countStack units hguarded hunits).imp
    rintro ⟨⟨stackDone, budget₁⟩, stacked⟩ s₁ ⟨o₁, hrun₁, h₁, hwork, hrest₁, hspends₁⟩
    have hload₁ := Outline.load_run hrun₁
    cases stackDone with
    | false => exact ⟨o₁, hrun₁, h₁, Bool.noConfusion, hspends₁⟩
    | true =>
      refine yields_ite (fun hfalse => by cases hfalse) fun _ => ?_
      rw [yields_bind, yields_get]
      refine yields_ite (fun hempty => ?_) fun hmore => ?_
      · rw [yields_bind, MarkM.record, yields_modify]
        refine ⟨o₁, hrun₁, h₁.record rfl, fun _ => ⟨hwork rfl, ?_⟩, hspends₁⟩
        rw [← h₁.delayed, ← DelayedList.Tidy.isEmpty_iff]
        exact hempty
      · have hdelayed : o₁.delayed ≠ [] := by
          rw [← h₁.delayed]
          exact fun hnil => hmore (DelayedList.Tidy.isEmpty_iff.mpr hnil)
        rw [yields_bind, MarkM.record, yields_modify, yields_bind]
        have hphase : (Record.delayedPhase s₁.delayed.size).refused? = none := rfl
        have hrecorded := h₁.record hphase
        apply (hrecorded.yields_countDelayed units (hguarded.run hrun₁) (by omega)).imp
        rintro ⟨⟨delayedDone, budget₂⟩, delayed⟩ s₂ ⟨o₂, hrun₂, h₂, -, hpos, hrest₂, hspends₂⟩
        have hrun := hrun₁.trans hrun₂
        have hspends := hspends₁.append hspends₂ hrest₁
        cases delayedDone with
        | false => exact ⟨o₂, hrun, h₂, Bool.noConfusion, hspends⟩
        | true =>
          refine yields_ite (fun hfalse => by cases hfalse) fun _ => ?_
          have hless : o₂.load S.graph < o₁.load S.graph :=
            (Nat.lt_add_of_pos_right (hpos hdelayed)).trans_le hspends₂.load
          rw [yields_bind]
          refine (ih h₂ (hguarded.run hrun) (by omega) (by omega)).imp fun result _ hlands => ?_
          obtain ⟨drained, count⟩ := result
          refine (hlands.imp fun o₃ _ hknown => ?_).head hrun
          exact ⟨hknown.1, hspends.append hknown.2 (hrest₂.trans hrest₁)⟩

/-- A slice that leaves nothing says so, and the load pays for its units. -/
theorem Tracks.yields_countDrain {budget : Budget} (h : S.Tracks [] [] o s)
    (hguarded : o.Guarded S.toTerrain) :
    Yields (countDrain S.graph budget) s
      (fun (drained, count) => S.Lands o [] [] fun o' =>
        (drained = true → o'.work = 0 ∧ o'.delayed = []) ∧
        o.Spends o' S.graph budget drained count) S.Overflows := by
  have hcounted : S.Tracks [] [] o { s with slices := s.slices + 1 } := { h with }
  rw [countDrain, yields_bind, yields_modify, yields_bind]
  apply hcounted.yields_workBound.imp
  intro units _ hend
  obtain ⟨hunits, rfl⟩ := hend
  exact hcounted.yields_countRounds units units hguarded hunits hunits

theorem Tracks.yields_drain {budget : Budget} (h : S.Tracks [] [] o s)
    (hguarded : o.Guarded S.toTerrain) :
    Yields (drain S.graph budget) s
      (fun drained => S.Lands o [] [] fun o' => drained = true → o'.work = 0 ∧ o'.delayed = [])
      S.Overflows := by
  rw [← fst_countDrain, yields_map]
  refine (h.yields_countDrain hguarded).imp fun _ _ hlands => ?_
  exact hlands.imp fun _ _ hknown => hknown.1

theorem Tracks.yields_countTrace {budget : Budget} (h : S.Tracks [] [] o s)
    (hguarded : o.Guarded S.toTerrain) :
    Yields (countTrace S.graph budget) s
      (fun (answer, count) => S.Lands o [] [] fun o' =>
        o.Spends o' S.graph budget answer.1 count) S.Overflows := by
  rw [countTrace, yields_bind]
  apply h.yields_workBound.imp
  intro units _ hend
  obtain ⟨hunits, rfl⟩ := hend
  refine (h.yields_countDelayed units hguarded hunits).imp fun _ _ hlands => ?_
  exact hlands.imp fun _ _ hknown => hknown.2.2.2

end Setting

end MarkPhase
