import MarkPhase.Proofs.Audits
import MarkPhase.Proofs.Colors

/-!
What a budget buys. A limited budget pays for as many units of work as it says, but always
for one; a slice is cut short with the last of them and not before. An unlimited budget
pays for everything. What a slice has found when it is cut short is left to later slices.
-/

namespace MarkPhase

namespace Budget

/-- What a slice has cost: its units fit the budget, and they use it up just when the slice is
cut short. -/
structure Pays (budget : Budget) (done : Bool) (count : Nat) : Prop where
  limited : ∀ n, budget = .work n →
    (done = true → count < max 1 n) ∧ (done = false → count = max 1 n)
  unlimited : budget = .unlimited → done = true

namespace Pays

variable {budget : Budget} {done : Bool} {first second : Nat}

theorem nothing : budget.Pays true 0 where
  limited n _ := ⟨fun _ => by omega, Bool.noConfusion⟩
  unlimited _ := rfl

/-- The budget runs out with a unit. -/
theorem last (hover : (budget.step 1).isOver = true) : budget.Pays false 1 where
  limited n heq := by
    subst heq
    simp only [isOver, step, work, Option.map_some, beq_iff_eq, Option.some.injEq] at hover
    exact ⟨Bool.noConfusion, fun _ => by omega⟩
  unlimited heq := by
    subst heq
    cases hover

/-- The budget lasts beyond a unit. -/
theorem one (hgo : ¬ (budget.step 1).isOver = true) : budget.Pays true 1 where
  limited n heq := by
    subst heq
    simp only [isOver, step, work, Option.map_some, beq_iff_eq, Option.some.injEq] at hgo
    exact ⟨fun _ => by omega, Bool.noConfusion⟩
  unlimited _ := rfl

/-- What is left of a budget pays for the rest. -/
theorem append (h : budget.Pays true first) (hrest : (budget.step first).Pays done second) :
    budget.Pays done (first + second) where
  limited n heq := by
    subst heq
    have hfirst := (h.limited n rfl).1 rfl
    obtain ⟨hdone, hcut⟩ := hrest.limited (n - first) rfl
    exact ⟨fun heq => by have hless := hdone heq; omega,
      fun heq => by have hequal := hcut heq; omega⟩
  unlimited heq := by
    subst heq
    exact hrest.unlimited rfl

end Pays

@[simp]
theorem step_zero (budget : Budget) : budget.step 0 = budget := by
  simp [step]

theorem step_step (budget : Budget) (first second : Nat) :
    (budget.step first).step second = budget.step (first + second) := by
  cases hremaining : budget.remaining with
  | none => simp [step, hremaining]
  | some left => simp [step, hremaining, Nat.sub_sub]

end Budget

variable {ω : Type} {g : Graph}

namespace MarkM

open Budget

private theorem yields_countStack (units : Nat) (found : Option ObjectId) (budget : Budget)
    (s : Marking ω) :
    Yields (countStack g units found budget) s
      (fun ((done, rest), count) _ => budget.Pays done count ∧ rest = budget.step count)
      fun _ _ => True := by
  induction units generalizing found budget s with
  | zero => trivial
  | succ units ih =>
    rw [countStack]
    refine yields_after fun _ _ => yields_ite (fun _ => ?_) fun _ => ?_
    · exact ⟨.nothing, (step_zero budget).symm⟩
    refine yields_after fun next t => yields_ite (fun hover => ?_) fun hgo => ?_
    · have hlast : ∀ u : Marking ω, Yields (do
            record (.overBudget (← get).stack.size)
            return ((false, budget.step 1), 1) : MarkM ω ((Bool × Budget) × Nat)) u
          (fun ((done, rest), count) _ => budget.Pays done count ∧ rest = budget.step count)
          fun _ _ => True := fun _ =>
        yields_after fun _ _ => yields_after fun _ _ => ⟨.last hover, rfl⟩
      cases next with
      | none => exact hlast t
      | some id => exact yields_after fun _ u => hlast u
    · rw [yields_bind]
      refine (ih next _ t).imp fun result _ hpaid => ?_
      obtain ⟨⟨answer, rest⟩, count⟩ := result
      obtain ⟨hpays, rfl⟩ := hpaid
      rw [yields_pure, Nat.add_comm]
      exact ⟨(Pays.one hgo).append hpays, step_step budget 1 count⟩

private theorem yields_countDelayed (units : Nat) (budget : Budget) (s : Marking ω) :
    Yields (countDelayed g units budget) s
      (fun ((done, rest), count) _ => budget.Pays done count ∧ rest = budget.step count)
      fun _ _ => True := by
  induction units generalizing budget s with
  | zero => trivial
  | succ units ih =>
    rw [countDelayed]
    refine yields_after fun next _ => ?_
    cases next with
    | none => exact ⟨.nothing, (step_zero budget).symm⟩
    | some thing =>
      refine yields_after fun _ _ => yields_after fun _ _ => yields_after fun _ t => ?_
      refine yields_ite (fun hover => ⟨.last hover, rfl⟩) fun hgo => ?_
      rw [yields_bind]
      refine (ih _ t).imp fun result _ hpaid => ?_
      obtain ⟨⟨answer, rest⟩, count⟩ := result
      obtain ⟨hpays, rfl⟩ := hpaid
      rw [yields_pure, Nat.add_comm]
      exact ⟨(Pays.one hgo).append hpays, step_step budget 1 count⟩

private theorem yields_countRounds (units rounds : Nat) (budget : Budget) (s : Marking ω) :
    Yields (countRounds g units rounds budget) s (fun result _ => budget.Pays result.1 result.2)
      fun _ _ => True := by
  induction rounds generalizing budget s with
  | zero => trivial
  | succ rounds ih =>
    rw [countRounds, yields_bind]
    refine (yields_countStack units none budget s).imp fun result t hstacked => ?_
    obtain ⟨⟨stackDone, rest⟩, stacked⟩ := result
    obtain ⟨hstacked, rfl⟩ := hstacked
    cases stackDone with
    | false => exact hstacked
    | true =>
      refine yields_ite (fun hfalse => by cases hfalse) fun _ => ?_
      refine yields_after fun u _ => yields_ite (fun _ => ?_) fun _ => ?_
      · exact yields_after fun _ _ => hstacked
      refine yields_after fun _ v => ?_
      rw [yields_bind]
      refine (yields_countDelayed units _ v).imp fun result w hdelayed => ?_
      obtain ⟨⟨delayedDone, rest⟩, delayed⟩ := result
      obtain ⟨hdelayed, rfl⟩ := hdelayed
      have hpaid := hstacked.append hdelayed
      cases delayedDone with
      | false => exact hpaid
      | true =>
        refine yields_ite (fun hfalse => by cases hfalse) fun _ => ?_
        rw [yields_bind]
        refine (ih _ w).imp fun result _ hrest => ?_
        rw [step_step] at hrest
        exact hpaid.append hrest

/-- The units of a slice are what its budget pays for. -/
theorem yields_countDrain_pays (budget : Budget) (s : Marking ω) :
    Yields (countDrain g budget) s (fun result _ => budget.Pays result.1 result.2)
      fun _ _ => True :=
  yields_after fun _ _ => yields_after fun units t => yields_countRounds units units budget t

end MarkM

namespace Basis

variable {B : Basis} {c : Chronicle ω} {id : ObjectId}

/-- An object that was shaded in the course of the accounts has been scanned, or it waits; it
is scanned once, and once more for each of its ranges that is refused. -/
theorem Balanced.not_lost (h : B.Balanced 0 c) (hold : B.marks.isMarked id.thing = false)
    (hmarked : c.marks.isMarked id.thing = true) :
    (0 < c.scans id.thing ∨ .object id ∈ c.stack.items ∨ id.thing ∈ c.delayed.things) ∧
      c.scans id.thing ≤ 1 + c.cuts id.thing := by
  have hkept := h.kept id hold hmarked
  have hscans := h.scans id.thing (Or.inr hold)
  have htotal : (0 + c.dues B.graph).count (.scan id.thing) = c.scans id.thing +
      (c.stack.items.map (StackEntry.dues B.graph)).sum.count (.scan id.thing) := by
    rw [zero_add, Chronicle.dues, Multiset.count_add, Chronicle.count_scan_events]
  rw [htotal] at hkept hscans
  refine ⟨?_, by omega⟩
  by_cases hscanned : 0 < c.scans id.thing
  · exact Or.inl hscanned
  · refine Or.inr ?_
    by_cases hwaits : id.thing ∈ c.delayed.things
    · exact Or.inr hwaits
    · rw [List.count_eq_zero.mpr hwaits] at hkept
      obtain ⟨entry, hmem, hdue⟩ := exists_entry_of_due
        (show 0 < (c.stack.items.map (StackEntry.dues B.graph)).sum.count (.scan id.thing) by omega)
      obtain ⟨howner, hvalues⟩ := owner_of_due hdue
      left
      cases entry with
      | object other =>
        obtain rfl := Ref.thing_injective howner
        exact hmem
      | values range => exact absurd rfl (hvalues range)
      | _ => cases congrArg Thing.kind howner

end Basis

namespace Launch

variable {L : Launch ω} {s t : Marking ω} {budget : Budget}

/-- What a slice from `s` comes to. It takes as many units as its budget allows, or fewer if it
leaves nothing; an object that it has found last it has not scanned, and later slices do not
lose it or scan it twice unless a range of its values is refused. -/
structure Accounts (L : Launch ω) (budget : Budget) (s : Marking ω) (drained : Bool)
    (units : Nat) (c : Chronicle ω) : Prop where
  count : MarkM.countDrain L.graph budget s = .ok (drained, units) c.toMarking
  drain : MarkM.drain L.graph budget s = .ok drained c.toMarking
  chronicle : ChronM.drain L.graph budget { toMarking := s } = .ok drained c
  limited : ∀ n, budget = .work n → units ≤ max 1 n ∧ (drained = false ↔ units = max 1 n)
  unlimited : budget = .unlimited → drained = true
  idle : drained = true → c.isDrained = true
  postponed : ∀ id, .postponed id ∈ c.events → .scanned id.thing ∉ c.events ∧
    ∀ (later : List Step) (u : Marking ω),
      later.forM (Step.make L.graph) c.toMarking = .ok () u → ∃ d : Chronicle ω,
        later.forM (ChronM.makeStep L.graph) c = .ok () d ∧ d.toMarking = u ∧
        (0 < d.scans id.thing ∨ .object id ∈ d.stack.items ∨ id.thing ∈ d.delayed.things) ∧
        d.scans id.thing ≤ 1 + d.cuts id.thing

/-- What a slice puts off it has not scanned, and later slices do not lose it. -/
theorem Ready.postponed (h : L.Ready s) {drained : Bool} {c : Chronicle ω}
    (hdrain : ChronM.drain L.graph budget { toMarking := s } = .ok drained c) {id : ObjectId}
    (hpostponed : .postponed id ∈ c.events) :
    .scanned id.thing ∉ c.events ∧ ∀ (later : List Step) (u : Marking ω),
      later.forM (Step.make L.graph) c.toMarking = .ok () u → ∃ d : Chronicle ω,
        later.forM (ChronM.makeStep L.graph) c = .ok () d ∧ d.toMarking = u ∧
        (0 < d.scans id.thing ∨ .object id ∈ d.stack.items ∨ id.thing ∈ d.delayed.things) ∧
        d.scans id.thing ≤ 1 + d.cuts id.thing := by
  have hstart : (⟨L.graph, L.sound, s.marks, False, False.elim, True⟩ : Basis).Balanced 0
      ({ toMarking := s } : Chronicle ω) :=
    Basis.balanced_start h.stack h.delayedTidy (fun entry hentry => (h.stacked entry hentry).1)
      (fun thing hthing => (h.delayed thing hthing).1) rfl False.elim
  obtain ⟨hends, -⟩ := (Basis.settles_drain budget 0 _ hstart).of_ok hdrain
  obtain ⟨-, hold, hmarked, hscanned⟩ := hends.postponed trivial id hpostponed
  refine ⟨hscanned, fun later u hlater => ?_⟩
  obtain ⟨d, hd, rfl⟩ := (ChronM.erases_steps L.graph later).exists_ok hlater
  have hbalanced := (Basis.settles_steps not_false later 0 c hends.balanced).of_ok hd
  have hpaints := ((MarkM.lasting_paints L.graph).steps later c.toMarking).of_ok hlater
  have hstill : d.marks.isMarked id.thing = true := by
    rw [ThingTable.isMarked, hpaints.get_eq hmarked]
    exact hmarked
  exact ⟨d, hd, rfl, hbalanced.not_lost hold hstill⟩

/-- The units of a slice are what its budget pays for, and a slice that is not cut short leaves
nothing. -/
theorem Ready.yields_countDrain (h : L.Ready s) (budget : Budget) :
    Yields (MarkM.countDrain L.graph budget) s
      (fun result t => budget.Pays result.1 result.2 ∧ (result.1 = true → t.isDrained = true))
      fun fault _ => allocationFault? L.configuration.segmentSize entryBytes = some fault := by
  have hunits : Yields (MarkM.countDrain L.graph budget) s _ _ :=
    h.tracks.yields_countDrain h.guarded
  refine ((MarkM.yields_countDrain_pays budget s).and hunits).mono ?_ ?_
  · intro result t hend
    obtain ⟨hpays, o, -, htracks, hidle, -⟩ := hend
    refine ⟨hpays, fun hdone => ?_⟩
    obtain ⟨hwork, hdelayed⟩ := hidle hdone
    rw [Marker.isDrained, htracks.isEmpty_iff.mpr hwork,
      DelayedList.Tidy.isEmpty_iff.mpr (htracks.delayed.trans hdelayed)]
    rfl
  · exact fun fault t hfault => h.allocationFault?_of_overflows hfault.2

/-- From every state that a marker may get into, a slice accounts for its budget, or it stops
for want of memory. -/
theorem slice_accounts (L : Launch ω) (marks : MarkTable) {commands : List Command}
    {s : Marking ω}
    (hrun : commands.forM (Command.make L.graph) { L.start with marks } = .ok () s)
    (budget : Budget) :
    (∃ drained units c, L.Accounts budget s drained units c) ∨
      ∃ fault t, allocationFault? L.configuration.segmentSize entryBytes = some fault ∧
        MarkM.drain L.graph budget s = .error fault t := by
  have hready : L.Ready s := (L.ready_start marks).of_commands hrun
  have hyields := hready.yields_countDrain budget
  cases hcount : MarkM.countDrain L.graph budget s with
  | ok result t =>
    obtain ⟨drained, units⟩ := result
    have hdrain : MarkM.drain L.graph budget s = .ok drained t := by
      rw [← MarkM.fst_countDrain]
      exact map_eq_ok hcount
    obtain ⟨c, hchronicle, rfl⟩ := (ChronM.erases_drain L.graph budget).exists_ok
      (c := { toMarking := s }) hdrain
    obtain ⟨hpays, hidle⟩ := hyields.of_ok hcount
    refine Or.inl ⟨drained, units, c, hcount, hdrain, hchronicle, fun n heq => ?_,
      hpays.unlimited, hidle, fun id => hready.postponed hchronicle⟩
    obtain ⟨hdone, hcut⟩ := hpays.limited n heq
    cases drained with
    | false =>
      have hall := hcut rfl
      exact ⟨hall.le, fun _ => hall, fun _ => rfl⟩
    | true =>
      have hless := hdone rfl
      exact ⟨hless.le, Bool.noConfusion, fun hall => absurd hall hless.ne⟩
  | error fault t =>
    refine Or.inr ⟨fault, t, hyields.of_error hcount, ?_⟩
    rw [← MarkM.fst_countDrain]
    change EStateM.map _ _ s = _
    simp only [EStateM.map, hcount]

theorem slice_accounts_sample :
    let L : Launch Unit := sample 1 (some ⟨.rangeless, ()⟩)
    let commands : List Command :=
      [.step (.call (.unnamed ⟨.object, 0⟩)), .step (.slice (.work 1)), .recolor .black]
    ∃ s, commands.forM (Command.make L.graph) { L.start with marks := {} } = .ok () s ∧
      ∃ drained units c, L.Accounts (.work 1) s drained units c := by
  intro L commands
  obtain ⟨s, hs⟩ : ∃ s, commands.forM (Command.make L.graph) { L.start with marks := {} } =
      .ok () s := Yields.exists_end (by decide +kernel)
  obtain haccounts | ⟨fault, t, hfault, -⟩ := L.slice_accounts {} hs (.work 1)
  · exact ⟨s, hs, haccounts⟩
  · cases hfault

/-- Three objects, the first referring to the second and the second to the third, before a
marker that may not put ranges of values on its stack. -/
def rangeless : Launch Unit :=
  { sample 0 (some ⟨.rangeless, ()⟩) with
    history :=
      [.baseShape .atoms none none none none, .shape .atoms ⟨0⟩ .void none,
        .typeObject .atoms [] none none none, .object .atoms ⟨0⟩ ⟨0⟩ 1, .object .atoms ⟨0⟩ ⟨0⟩ 2,
        .object .atoms ⟨0⟩ ⟨0⟩ 0, .slot ⟨0⟩ 0 (.object ⟨1⟩), .slot ⟨1⟩ 0 (.object ⟨2⟩),
        .slot ⟨1⟩ 1 .null]
    grounded := by decide +kernel }

/-- Where no segment fits memory a drain may fail whatever its budget is, and where a range of
its values is refused an object that a slice has put off is scanned twice by a later one. -/
theorem slice_fails_or_rescans :
    (let L : Launch Unit := cramped (some ⟨.objectless, ()⟩)
      ∃ s t, [Command.step (.call (.unnamed ⟨.object, 0⟩))].forM (Command.make L.graph) L.start =
          .ok () s ∧
        MarkM.drain L.graph .unlimited s = .error .capacityOverflow t) ∧
    (let L := rangeless
      ∃ c d : Chronicle Unit,
        [Step.call (.unnamed ⟨.object, 0⟩), .slice (.work 1)].forM (ChronM.makeStep L.graph)
          { toMarking := L.start } = .ok () c ∧
        .postponed ⟨1⟩ ∈ c.events ∧ ChronM.drain L.graph .unlimited c = .ok true d ∧
        d.scans ⟨.object, 1⟩ = 2) := by
  constructor
  · intro L
    obtain ⟨_, s, t, hs, ht⟩ : ∃ a s t,
        [Command.step (.call (.unnamed ⟨.object, 0⟩))].forM (Command.make L.graph) L.start =
            .ok a s ∧
          MarkM.drain L.graph .unlimited s = .error .capacityOverflow t :=
      Yields.exists_fault (by decide +kernel)
    exact ⟨s, t, hs, ht⟩
  · intro L
    obtain ⟨_, c, _, d, hc, hd, rfl, hpostponed, hscans⟩ : ∃ a c done d,
        [Step.call (.unnamed ⟨.object, 0⟩), .slice (.work 1)].forM (ChronM.makeStep L.graph)
          ({ toMarking := L.start } : Chronicle Unit) = .ok a c ∧
        ChronM.drain L.graph .unlimited c = .ok done d ∧ done = true ∧
        .postponed ⟨1⟩ ∈ c.events ∧ d.scans ⟨.object, 1⟩ = 2 :=
      Yields.exists_ends (by decide +kernel)
    exact ⟨c, d, hc, hpostponed, hd, hscans⟩

end Launch

end MarkPhase
