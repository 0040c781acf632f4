import MarkPhase.Proofs.Frequency
import MarkPhase.Proofs.Likeness

/-!
Slices. Where nothing is refused, a run that is cut into slices does the same as a run
that is not. At the end of a slice the object found last is put on the stack, and the
next slice takes it from there first: the two runs are always at states that look alike,
or the sliced run is at such a state but for that one entry.
-/

namespace MarkPhase

variable {ω : Type}

open MarkM

/-- In `count` units of work, the stack is worked off from `s` to `t`. If `found` is some
object, this object is the first to be scanned. -/
inductive Works (g : Graph) : (count : Nat) → Option ObjectId → Marking ω → Marking ω → Prop
  | done {s : Marking ω} (hempty : s.stack.isEmpty = true) : Works g 0 none s s
  | unit {count : Nat} {found next : Option ObjectId} {s s' t : Marking ω}
      (hwork : (found.isNone && s.stack.isEmpty) = false)
      (hunit : advance g found s = .ok next s') (hrest : Works g count next s' t) :
      Works g (count + 1) found s t

/-- A drain of the stack that no budget ends does these units. -/
theorem Works.drainStack_eq {g : Graph} {count : Nat} {found : Option ObjectId} {s t : Marking ω}
    (h : Works g count found s t) {units : Nat} (hunits : count < units) :
    drainStack g units found .unlimited s = .ok (true, .unlimited) t := by
  induction h generalizing units with
  | done hempty =>
    obtain ⟨units, rfl⟩ := Nat.exists_eq_succ_of_ne_zero (Nat.ne_of_gt hunits)
    apply Yields.eq_ok
    rw [drainStack, yields_bind, yields_get, hempty]
    exact ⟨rfl, rfl⟩
  | @unit count found next s s' t hwork hunit _ ih =>
    obtain ⟨units, rfl⟩ := Nat.exists_eq_succ_of_ne_zero (Nat.ne_of_gt (Nat.zero_lt_of_lt hunits))
    apply Yields.eq_ok
    rw [drainStack, yields_bind, yields_get, hwork, if_neg Bool.false_ne_true, yields_bind,
      yields_of_eq_ok hunit]
    refine yields_ite (fun hover => by cases hover) fun _ => ?_
    rw [show Budget.unlimited.step 1 = .unlimited from rfl,
      yields_of_eq_ok (ih (Nat.lt_of_succ_lt_succ hunits))]
    exact ⟨rfl, rfl⟩

/-- In `count` slices, with one budget after the other, marking gets from `s` to `t`. Only the
last slice leaves nothing to do. -/
inductive Slices (g : Graph) :
    (budgets : Nat → Budget) → (count : Nat) → Marking ω → Marking ω → Prop
  | last {budgets : Nat → Budget} {s t : Marking ω}
      (hdrain : drain g (budgets 0) s = .ok true t) : Slices g budgets 1 s t
  | more {budgets : Nat → Budget} {count : Nat} {s s' t : Marking ω}
      (hdrain : drain g (budgets 0) s = .ok false s')
      (hrest : Slices g (fun index => budgets (index + 1)) count s' t) :
      Slices g budgets (count + 1) s t

/-- Two runs between slices: `t` looks like `s` but for the object found last, which `t` has
on its stack. -/
inductive Parked (seen : ω → List Thing) : Option ObjectId → Marking ω → Marking ω → Prop
  | nothing {s t : Marking ω} (halike : t.Alike seen s) : Parked seen none s t
  | object {id : ObjectId} {s t : Marking ω} (htidy : t.stack.Tidy)
      (hitems : t.stack.items = .object id :: s.stack.items)
      (halike : Marking.Alike seen { t with stack := t.stack.pop.2 } s) :
      Parked seen (some id) s t

/-- Two runs within a slice. -/
inductive Meets (seen : ω → List Thing) :
    Option ObjectId → Marking ω → Option ObjectId → Marking ω → Prop
  | alike {found : Option ObjectId} {s t : Marking ω} (halike : t.Alike seen s) :
      Meets seen found s found t
  | parked {found : Option ObjectId} {s t : Marking ω} (hparked : Parked seen found s t) :
      Meets seen found s none t

variable {seen : ω → List Thing} {found found' : Option ObjectId} {s t : Marking ω}

namespace Parked

theorem size_eq (h : Parked seen found s t) :
    t.stack.size = (Setting.Found found).length + s.stack.size ∧ t.delayed = s.delayed := by
  cases h with
  | nothing halike => exact ⟨by rw [halike.stack.size]; exact (Nat.zero_add _).symm, halike.delayed⟩
  | object htidy hitems halike =>
    refine ⟨?_, halike.delayed⟩
    rw [htidy.size_eq, hitems, List.length_cons, halike.stack.otherTidy.size_eq, Nat.add_comm]
    rfl

/-- The number of slices makes no difference. -/
theorem sliced (h : Parked seen found s t) :
    Parked seen found s { t with slices := t.slices + 1 } := by
  cases h with
  | nothing halike => exact .nothing { halike with }
  | object htidy hitems halike => exact .object htidy hitems { halike with }

end Parked

namespace Meets

/-- The two runs end at the same time. -/
theorem isEmpty_eq (h : Meets seen found s found' t) :
    (found'.isNone && t.stack.isEmpty) = (found.isNone && s.stack.isEmpty) := by
  cases h with
  | alike halike => rw [halike.stack.isEmpty]
  | parked hparked =>
    cases hparked with
    | nothing halike => rw [halike.stack.isEmpty]
    | object htidy hitems =>
      have hsome : t.stack.isEmpty ≠ true := fun hempty => by
        rw [htidy.isEmpty_iff.mp hempty] at hitems
        cases hitems
      simpa using hsome

/-- A unit of work is the same for both. -/
theorem same_advance (h : Meets seen found s found' t) (g : Graph) :
    Same seen (advance g found' t) (advance g found s) := by
  cases h with
  | alike halike => exact (inherited_faithful g).advance found halike
  | parked hparked =>
    cases hparked with
    | nothing halike => exact (inherited_faithful g).advance none halike
    | @object id _ _ htidy hitems halike =>
      have hpop : t.stack.pop.1 = some (.object id) := by
        rw [htidy.items_pop.1, hitems]
        rfl
      have hpopped : popEntry t = .ok (some (.object id)) { t with stack := t.stack.pop.2 } := by
        rw [← hpop]
        rfl
      have hadvance : advance g none t = scanObject g id { t with stack := t.stack.pop.2 } := by
        rw [advance]
        change EStateM.bind popEntry _ t = _
        rw [EStateM.bind, hpopped]
        rfl
      rw [hadvance]
      exact (inherited_faithful g).scanObject id halike

end Meets

/-- The object found last is put on the stack. -/
theorem Marking.Alike.yields_pushEntry (halike : t.Alike seen s)
    (hadmits : s.stack.admits = .ok true) (id : ObjectId) {faults : Fault → Marking ω → Prop} :
    Yields (pushEntry (.object id)) t (fun _ t' => Parked seen (some id) s t') faults := by
  unfold pushEntry
  rw [yields_bind]
  apply (yields_isRefused halike (.object id)).imp
  intro _ t₁ hend
  obtain ⟨rfl, halike₁⟩ := hend
  rw [if_neg Bool.false_ne_true, yields_bind, yields_get, halike₁.stack.admits, hadmits]
  refine .object (halike₁.stack.tidy.extend _) ?_
    { halike₁ with stack := halike₁.stack.pop_extend _ }
  change (t₁.stack.extend (.object id)).notePeak.items = _
  rw [SegmentedStack.items_notePeak, halike₁.stack.tidy.items_extend, halike₁.stack.items]

/-! Budgets that run out. -/

namespace Budget

variable {budget : Budget} {units : Nat}

theorem of_isOver_step (h : (budget.step 1).isOver = true) :
    ∃ units, budget.remaining = some units ∧ max 1 units = 1 := by
  have hremaining : budget.remaining.map (· - 1) = some 0 := by
    simpa [isOver, step] using h
  obtain ⟨units, hunits, hzero⟩ := Option.map_eq_some_iff.mp hremaining
  exact ⟨units, hunits, by omega⟩

theorem two_le_of_step (h : (budget.step 1).isOver = false)
    (hunits : budget.remaining = some units) :
    2 ≤ units := by
  by_contra hless
  have hzero : units - 1 = 0 := by omega
  simp [isOver, step, hunits, hzero] at h

end Budget

/-! The run that is not cut. -/

namespace Setting

variable {S : Setting ω} {hand : List Duty} {o o' : Outline}

theorem not_overflows (hroomy : S.roomy) (fault : Fault) (t : Marking ω) :
    ¬ S.Overflows fault t :=
  fun hfault => hfault.not_roomy hroomy

/-- Where nothing is refused, nothing is delayed. -/
theorem delays_of_run (hcalm : S.calm) (hrun : S.Run o o') (hdelays : o.delays = [])
    (hdelayed : o.delayed = []) : o'.delays = [] ∧ o'.delayed = [] := by
  induction hrun with
  | refl => exact ⟨hdelays, hdelayed⟩
  | tail _ hmove ih =>
    cases hmove with
    | refuse hnot => exact absurd hcalm hnot
    | resume hthing =>
      rw [ih.2] at hthing
      cases hthing
    | _ => exact ih

/-- The stack takes another entry. -/
theorem Tracks.admits (h : S.Tracks hand [] o s) (hcalm : S.calm) (hroomy : S.roomy) :
    s.stack.admits = .ok true := by
  have hfits : fitsMemory s.stack.segmentSize s.stack.itemBytes = true := by
    rw [h.segmentSize, h.itemBytes]
    exact S.roomy_iff.mp hroomy
  exact SegmentedStack.admits_eq_true_iff.mpr ⟨h.size_le_load.trans_lt (h.bounded hcalm), hfits⟩

theorem Tracks.work_ne (h : S.Tracks (Found found) [] o s)
    (hwork : (found.isNone && s.stack.isEmpty) = false) : found = none → s.stack.items ≠ [] := by
  rintro rfl hitems
  rw [h.stack.isEmpty_iff.mpr hitems] at hwork
  cases hwork

/-- One unit of the run that is not cut. -/
theorem Tracks.of_advance (h : S.Tracks (Found found) [] o s) (hbalanced : o.Balanced S.toTerrain)
    (hwork : (found.isNone && s.stack.isEmpty) = false) {next : Option ObjectId}
    {s' : Marking ω} (hunit : advance S.graph found s = .ok next s') :
    S.Lands o (Found next) [] (fun o' => o'.load S.graph < o.load S.graph) s' :=
  (h.yields_advance hbalanced.guarded (h.work_ne hwork)).of_ok hunit

/-- There is a run that is not cut, and the load bounds its length. -/
theorem Tracks.exists_works (h : S.Tracks (Found found) [] o s) (hbalanced : o.Balanced S.toTerrain)
    (hroomy : S.roomy) : ∃ count e, Works S.graph count found s e := by
  induction hload : o.load S.graph using Nat.strong_induction_on generalizing found o s with
  | _ load ih =>
    by_cases hwork : (found.isNone && s.stack.isEmpty) = false
    · obtain ⟨next, s', hunit, o', hrun, h', hless⟩ :=
        (h.yields_advance hbalanced.guarded (h.work_ne hwork)).exists_ok (not_overflows hroomy)
      obtain ⟨count, e, hworks⟩ :=
        ih (o'.load S.graph) (hload ▸ hless) h' (hbalanced.run hrun) rfl
      exact ⟨count + 1, e, .unit hwork hunit hworks⟩
    · simp only [Bool.not_eq_false, Bool.and_eq_true, Option.isNone_iff_eq_none] at hwork
      obtain ⟨rfl, hempty⟩ := hwork
      exact ⟨0, s, .done hempty⟩

/-- Where the run that is not cut leads. -/
theorem Tracks.of_works {count : Nat} {e : Marking ω} (hworks : Works S.graph count found s e)
    (h : S.Tracks (Found found) [] o s) (hbalanced : o.Balanced S.toTerrain) :
    S.Lands o [] [] (fun o' => count + o'.load S.graph ≤ o.load S.graph) e := by
  induction hworks generalizing o with
  | done => exact ⟨o, .refl, h, (Nat.zero_add _).le⟩
  | unit hwork hunit _ ih =>
    obtain ⟨o₁, hrun, h₁, hless⟩ := h.of_advance hbalanced hwork hunit
    refine ((ih h₁ (hbalanced.run hrun)).imp fun o₂ _ hcount => ?_).head hrun
    omega

/-- From `s` on, with `found` in hand, the run that is not cut has `count` units to go until
it ends with `e`. -/
structure Ahead (S : Setting ω) (e : Marking ω) (count : Nat) (found : Option ObjectId)
    (s : Marking ω) : Prop where
  works : Works S.graph count found s e
  outline : ∃ o, S.Tracks (Found found) [] o s ∧ o.Balanced S.toTerrain ∧ o.delays = [] ∧
    o.delayed = []
  roomy : count ≠ 0 → S.roomy

/-- How a slice ends that starts where the run that is not cut has `count` units to go. -/
inductive Slice (S : Setting ω) (seen : ω → List Thing) (e : Marking ω) (budget : Budget)
    (count : Nat) : Bool → Marking ω → Prop
  | finished {t : Marking ω} (hlasts : ∀ units, budget.remaining = some units → count < max 1 units)
      (halike : t.Alike seen e) : Slice S seen e budget count true t
  | cut {units : Nat} {found : Option ObjectId} {s t : Marking ω}
      (hbudget : budget.remaining = some units) (hle : max 1 units ≤ count)
      (hahead : S.Ahead e (count - max 1 units) found s) (hparked : Parked seen found s t) :
      Slice S seen e budget count false t

variable {e : Marking ω} {count : Nat}

namespace Ahead

theorem of_zero (h : S.Ahead e 0 found s) : found = none ∧ s.stack.isEmpty = true ∧ s = e := by
  cases h.works with
  | done hempty => exact ⟨rfl, hempty, rfl⟩

theorem next (h : S.Ahead e (count + 1) found s) (hcalm : S.calm) :
    (found.isNone && s.stack.isEmpty) = false ∧ ∃ next s', advance S.graph found s = .ok next s' ∧
      S.Ahead e count next s' ∧ s'.stack.admits = .ok true := by
  have hroomy := h.roomy (Nat.succ_ne_zero count)
  obtain ⟨o, htracks, hbalanced, hdelays, hdelayed⟩ := h.outline
  cases h.works with
  | unit hwork hunit hrest =>
    obtain ⟨o', hrun, htracks', -⟩ := htracks.of_advance hbalanced hwork hunit
    obtain ⟨hdelays', hdelayed'⟩ := delays_of_run hcalm hrun hdelays hdelayed
    refine ⟨hwork, _, _, hunit, ⟨hrest, ?_, fun _ => hroomy⟩, htracks'.admits hcalm hroomy⟩
    exact ⟨o', htracks', hbalanced.run hrun, hdelays', hdelayed'⟩

/-- A slice may take more units than are left. -/
theorem lt_workBound (h : S.Ahead e count found s) :
    count < 4 * S.graph.thingCount + 2 * ((Found found).length + s.stack.size) +
      s.delayed.size + 3 := by
  obtain ⟨o, htracks, hbalanced, -⟩ := h.outline
  obtain ⟨o', -, -, hcount⟩ := htracks.of_works h.works hbalanced
  have hload := htracks.load_le
  omega

/-- When the end is reached, nothing has ever been delayed. -/
theorem at_end (h : S.Ahead e count found s) (hcalm : S.calm) :
    e.delayed.isEmpty = true ∧ e.delays = S.start.delays := by
  obtain ⟨o, htracks, hbalanced, hdelays, hdelayed⟩ := h.outline
  obtain ⟨o', hrun, htracks', -⟩ := htracks.of_works h.works hbalanced
  obtain ⟨hdelays', hdelayed'⟩ := delays_of_run hcalm hrun hdelays hdelayed
  refine ⟨DelayedList.Tidy.isEmpty_iff.mpr (htracks'.delayed.trans hdelayed'), ?_⟩
  rw [htracks'.delays, hdelays']
  rfl

end Ahead

/-- A unit belongs to the slice as long as the budget has not run out. -/
theorem Slice.of_step {budget : Budget} {finished : Bool} (hover : (budget.step 1).isOver = false)
    (h : S.Slice seen e (budget.step 1) count finished t) :
    S.Slice seen e budget (count + 1) finished t := by
  cases h with
  | finished hlasts halike =>
    refine .finished (fun units hunits => ?_) halike
    have hless := hlasts (units - 1) (by rw [Budget.step, hunits]; rfl)
    have htwo := Budget.two_le_of_step hover hunits
    omega
  | @cut rest _ _ _ hbudget hle hahead hparked =>
    obtain ⟨units, hunits, rfl⟩ := Option.map_eq_some_iff.mp hbudget
    have htwo := Budget.two_le_of_step hover hunits
    have hcount : count + 1 - max 1 units = count - max 1 (units - 1) := by omega
    exact .cut hunits (by omega) (hcount ▸ hahead) hparked

/-- The stack is worked off, or the budget runs out in the middle of it. -/
theorem Ahead.yields_drainStack (hcalm : S.calm) (units : Nat) {budget : Budget}
    (h : S.Ahead e count found s) (hmeets : Meets seen found s found' t) (hunits : count < units) :
    Yields (drainStack S.graph units found' budget) t
      (fun answer => S.Slice seen e budget count answer.1) (fun _ _ => False) := by
  induction units generalizing count found s found' t budget with
  | zero => exact absurd hunits (Nat.not_lt_zero _)
  | succ units ih =>
    rw [drainStack, yields_bind, yields_get, hmeets.isEmpty_eq]
    cases count with
    | zero =>
      obtain ⟨rfl, hempty, rfl⟩ := h.of_zero
      rw [hempty]
      refine yields_ite (fun _ => ?_) fun hne => absurd rfl hne
      have halike : t.Alike seen s := by
        cases hmeets with
        | alike halike => exact halike
        | parked hparked =>
          cases hparked with
          | nothing halike => exact halike
      exact .finished (fun _ _ => by omega) halike
    | succ count =>
      obtain ⟨hwork, next, s', hunit, hahead, hadmits⟩ := h.next hcalm
      have hsame := hmeets.same_advance S.graph
      rw [hunit] at hsame
      obtain ⟨t₁, hadvance, halike₁⟩ := hsame.exists_ok
      rw [hwork, if_neg Bool.false_ne_true, yields_bind, yields_of_eq_ok hadvance]
      refine yields_ite (fun hover => ?_) fun hgo => ?_
      · have hcut : ∀ {u : Marking ω}, Parked seen next s' u →
            S.Slice seen e budget (count + 1) false u := by
          intro u hparked
          obtain ⟨units, hbudget, hone⟩ := Budget.of_isOver_step hover
          exact .cut hbudget (by omega) (by rw [hone]; exact hahead) hparked
        cases next with
        | none =>
          change Yields (get >>= fun t => MarkM.record (.overBudget t.stack.size) >>= fun _ =>
            pure (false, budget.step 1)) t₁ _ _
          rw [yields_bind, yields_get, yields_bind, MarkM.record, yields_modify]
          exact hcut (.nothing { halike₁ with })
        | some id =>
          change Yields (pushEntry (.object id) >>= fun _ => get >>= fun t =>
            MarkM.record (.overBudget t.stack.size) >>= fun _ => pure (false, budget.step 1)) t₁ _ _
          rw [yields_bind]
          refine (halike₁.yields_pushEntry hadmits id).imp fun _ t₂ hparked => ?_
          rw [yields_bind, yields_get, yields_bind, MarkM.record, yields_modify]
          cases hparked with
          | object htidy hitems halike₂ => exact hcut (.object htidy hitems { halike₂ with })
      · exact (ih hahead (.alike halike₁) (by omega)).imp fun _ _ hslice =>
          hslice.of_step (Bool.not_eq_true _ ▸ hgo)

theorem Ahead.yields_drain (hcalm : S.calm) {budget : Budget} (h : S.Ahead e count found s)
    (hparked : Parked seen found s t) :
    Yields (drain S.graph budget) t (fun drained => S.Slice seen e budget count drained)
      (fun _ _ => False) := by
  obtain ⟨hsize, hdelayed⟩ := hparked.size_eq
  have hbound : count < 4 * S.graph.thingCount + 2 * t.stack.size + t.delayed.size + 3 := by
    rw [hsize, hdelayed]
    exact h.lt_workBound
  rw [drain, yields_bind, yields_modify, yields_bind, workBound, yields_bind, yields_get,
    yields_pure, drainRounds, yields_bind]
  apply (h.yields_drainStack hcalm _ (.parked hparked.sliced) hbound).imp
  rintro ⟨stackDone, rest⟩ t₁ hslice
  cases hslice with
  | cut hbudget hle hahead hparked' => exact .cut hbudget hle hahead hparked'
  | finished hlasts halike =>
    refine yields_ite (fun hfalse => by cases hfalse) fun _ => ?_
    rw [yields_bind, yields_get, halike.delayed, (h.at_end hcalm).1, if_pos rfl, yields_bind,
      MarkM.record, yields_modify]
    exact .finished hlasts { halike with }

/-- The run that is not cut is that of a drain without a budget. -/
theorem Ahead.drain_eq (hcalm : S.calm)
    (h : S.Ahead e count none { s with slices := s.slices + 1 }) :
    drain S.graph .unlimited s = .ok true
      { e with journal := e.journal.push (.drained e.toMarker.statistics) } := by
  have hbound : count < 4 * S.graph.thingCount + 2 * s.stack.size + s.delayed.size + 3 := by
    have hlt := h.lt_workBound
    change count < _ + 2 * (0 + s.stack.size) + s.delayed.size + 3 at hlt
    rwa [Nat.zero_add] at hlt
  apply Yields.eq_ok
  rw [drain, yields_bind, yields_modify, yields_bind, workBound, yields_bind, yields_get,
    yields_pure, drainRounds, yields_bind, yields_of_eq_ok (h.works.drainStack_eq hbound)]
  refine yields_ite (fun hfalse => by cases hfalse) fun _ => ?_
  rw [yields_bind, yields_get, (h.at_end hcalm).1, if_pos rfl, yields_bind, MarkM.record,
    yields_modify]
  exact ⟨rfl, rfl⟩

/-- However the run is cut, its slices come to the same end. With equal budgets, their number
follows from the length of the run. -/
theorem Ahead.exists_slices (hcalm : S.calm) (h : S.Ahead e count found s)
    (hparked : Parked seen found s t) (budgets : Nat → Budget) :
    ∃ calls u, Slices S.graph budgets calls t u ∧ u.Alike seen e ∧
      ∀ units, (∀ index, budgets index = .work units) → calls = count / max 1 units + 1 := by
  induction count using Nat.strong_induction_on generalizing found s t budgets with
  | _ count ih =>
    have hyields : Yields (drain S.graph (budgets 0)) t
        (fun drained => S.Slice seen e (budgets 0) count drained) (fun _ _ => False) :=
      h.yields_drain hcalm hparked
    obtain ⟨drained, u, hdrain, hslice⟩ := hyields.exists_post
    cases hslice with
    | finished hlasts halike =>
      refine ⟨1, u, .last hdrain, halike, fun units hall => ?_⟩
      have hless := hlasts units (by rw [hall 0]; rfl)
      rw [Nat.div_eq_of_lt hless]
    | @cut units next s' _ hbudget hle hahead hparked' =>
      obtain ⟨calls, u', hslices, halike, hcalls⟩ :=
        ih (count - max 1 units) (by omega) hahead hparked' fun index => budgets (index + 1)
      refine ⟨calls + 1, u', .more hdrain hslices, halike, fun others hall => ?_⟩
      obtain rfl : others = units := by
        rw [hall 0] at hbudget
        exact Option.some.inj hbudget
      rw [hcalls others fun index => hall (index + 1)]
      rw [Nat.div_eq_sub_div (by omega) hle]

/-- From a state between slices on, the run that is not cut ends somewhere. -/
theorem Tracks.exists_ahead (h : S.Tracks [] [] o s) (hbalanced : o.Balanced S.toTerrain)
    (hdelays : o.delays = []) (hdelayed : o.delayed = []) :
    ∃ count e, S.Ahead e count none s := by
  have hfound : S.Tracks (Found (none : Option ObjectId)) [] o s := h
  by_cases hroomy : S.roomy
  · obtain ⟨count, e, hworks⟩ := hfound.exists_works hbalanced hroomy
    exact ⟨count, e, hworks, ⟨o, hfound, hbalanced, hdelays, hdelayed⟩, fun _ => hroomy⟩
  · have hitems : s.stack.items = [] := by
      by_contra hne
      exact hroomy (h.roomy hne)
    have hworks : Works S.graph 0 none s s := .done (h.stack.isEmpty_iff.mpr hitems)
    exact ⟨0, s, hworks, ⟨o, hfound, hbalanced, hdelays, hdelayed⟩, fun hne => absurd rfl hne⟩

end Setting

/-! Logs of scans. -/

def Notice.scanned? : Notice → Option Thing
  | .scanned thing => some thing
  | .asked _ => none

/-- The scans that a log tells of, the oldest first. -/
def loggedScans (memory : ω × List Notice) : List Thing :=
  memory.2.filterMap Notice.scanned?

/-- The scans that an observer with a log has been told of. -/
def Marking.scanLog (s : Marking (ω × List Notice)) : List Thing :=
  s.log.filterMap Notice.scanned?

theorem Observer.scribe_logged {observer : Observer ω}
    (hgentle : ∀ entry memory, (observer.refuses entry memory).1 = false) :
    observer.logged.Scribe loggedScans where
  never entry memory := hgentle entry memory.1
  asked entry memory := by
    simp [loggedScans, Observer.logged, Notice.scanned?]
  told thing memory := by
    simp [loggedScans, Observer.logged, Notice.scanned?]

theorem Marking.Alike.scanLog_eq {s t : Marking (ω × List Notice)}
    (h : s.Alike loggedScans t) : s.scanLog = t.scanLog := by
  unfold Marking.scanLog Marking.log
  rcases Watcher.rel_cases h.watcher with ⟨hs, ht⟩ | ⟨watcher, other, hs, ht, halike⟩
  · rw [hs, ht]
  · rw [hs, ht]
    exact halike.memory

/-- A state without ropes on the stack looks like itself. -/
theorem Setting.Tracks.alike_self {S : Setting (ω × List Notice)} {hand : List Duty}
    {waiting : List StringId} {o : Outline} {s : Marking (ω × List Notice)}
    (h : S.Tracks hand waiting o s) {watcher : Option (Watcher ω)}
    (hwatcher : S.start.watcher = watcher.map Watcher.logged)
    (hgentle : ∀ held, watcher = some held → ∀ entry memory,
      (held.observer.refuses entry memory).1 = false) : s.Alike loggedScans s := by
  have hstack : s.stack.Alike s.stack :=
    ⟨h.stack, h.stack, rfl, rfl, rfl, rfl, Nat.le_refl _, Nat.le_succ _⟩
  have hself : Option.Rel (Watcher.Alike loggedScans) s.watcher s.watcher := by
    rw [h.watcher, hwatcher]
    cases watcher with
    | none => exact .none
    | some held =>
      refine .some ⟨?_, rfl, rfl⟩
      rw [Watcher.observer_hear]
      exact Observer.scribe_logged (hgentle held rfl)
  exact ⟨rfl, rfl, rfl, rfl, hstack, rfl, rfl, rfl, hself⟩

/-- The states agree on what has been scanned and marked, and nothing has ever been delayed.
The stack of `s` has at most been deeper by one than that of `t`. -/
structure Marking.Agrees (s t : Marking (ω × List Notice)) : Prop where
  scanLog : s.scanLog = t.scanLog
  marks : ∀ thing, s.marks.get thing = t.marks.get thing
  scanned : s.toMarker.statistics.scanned = t.toMarker.statistics.scanned
  delayed : s.toMarker.statistics.delayed = 0 ∧ t.toMarker.statistics.delayed = 0
  peakDepth : s.toMarker.statistics.peakDepth ≤ t.toMarker.statistics.peakDepth + 1

/-- Things of one kind are told apart by numbers of 32 bits. -/
def Graph.Numbered (g : Graph) : Prop :=
  ∀ kind, g.population kind ≤ 2 ^ 32

theorem Graph.Numbered.thingCount_le {g : Graph} (h : g.Numbered) : g.thingCount ≤ 7 * 2 ^ 32 := by
  have hobjects := h .object
  have hstrings := h .string
  have hscripts := h .script
  have hshapes := h .shape
  have hbases := h .baseShape
  have htypes := h .typeObject
  have hnodes := h .xml
  simp only [population] at hobjects hstrings hscripts hshapes hbases htypes hnodes
  unfold thingCount
  omega

namespace Launch

variable {L : Launch (ω × List Notice)}

/-- An unbounded stack has room for all the work that there may ever be. -/
theorem load_start_lt (hunbounded : L.configuration.stackLimit = 0) (hnumbered : L.graph.Numbered) :
    (Outline.start L.ledger.marks).load L.graph < L.start.stack.maxSize := by
  obtain ⟨-, -, hmaximum, -⟩ := L.start_idle
  have hcount : L.graph.thingCount ≤ 7 * 2 ^ 32 := hnumbered.thingCount_le
  have hbound : L.start.stack.maxSize = 2 ^ 64 - 1 := by
    rw [hmaximum, hunbounded]
    rfl
  rw [hbound]
  apply (Outline.load_start_le L.ledger.marks L.graph).trans_lt
  omega

/-- The marking calls of a session in which nothing is refused delay nothing. -/
private theorem Leads.exists_ahead {steps : List Step} {s : Marking ω} {L : Launch ω}
    (h : L.Leads steps s) (hgentle : L.Gentle)
    (hbounded : (Outline.start L.ledger.marks).load L.graph < L.start.stack.maxSize) :
    ∃ o count e, (L.calmScene steps hgentle).Tracks [] [] o s ∧
      (L.calmScene steps hgentle).Ahead e count none { s with slices := s.slices + 1 } := by
  have hstart : (L.calmScene steps hgentle).Tracks [] [] (Outline.start L.ledger.marks) L.start :=
    tracks_start fun _ => hbounded
  have hbalanced : (Outline.start L.ledger.marks).Balanced
      (L.calmScene steps hgentle).toTerrain := Outline.balanced_start L.unmarked
  obtain ⟨o, hrun, htracks, -⟩ := (hstart.yields_steps hbalanced.guarded
    fun thing hthing hallowed => .root hthing hallowed).of_ok h
  obtain ⟨hdelays, hdelayed⟩ := Setting.delays_of_run trivial hrun rfl rfl
  have hsliced : (L.calmScene steps hgentle).Tracks [] [] o { s with slices := s.slices + 1 } :=
    { htracks with }
  obtain ⟨count, e, hahead⟩ := hsliced.exists_ahead (hbalanced.run hrun) hdelays hdelayed
  exact ⟨o, count, e, htracks, hahead⟩

/-- Where no entry is ever refused, slices have no effect on what is scanned and marked, and
with equal budgets their number follows from the units of work that the uncut run takes. -/
theorem Leads.slices_agree {calls : List MarkingCall} {s : Marking (ω × List Notice)}
    (h : L.Leads (calls.map .call) s) (hunbounded : L.configuration.stackLimit = 0)
    (hnumbered : L.graph.Numbered) {watcher : Option (Watcher ω)}
    (hwatcher : L.watcher = watcher.map Watcher.logged)
    (hgentle : ∀ held, watcher = some held → ∀ entry memory,
      (held.observer.refuses entry memory).1 = false) :
    ∃ count e t, Works L.graph count none { s with slices := s.slices + 1 } e ∧
      t = { e with journal := e.journal.push (.drained e.toMarker.statistics) } ∧
      drain L.graph .unlimited s = .ok true t ∧
      ∀ budgets : Nat → Budget, ∃ slices u, Slices L.graph budgets slices s u ∧ u.Agrees t ∧
        ∀ units, (∀ index, budgets index = .work units) → slices = count / max 1 units + 1 := by
  have hcalmly : L.Gentle := by
    intro held hheld entry memory
    rw [hwatcher] at hheld
    obtain ⟨inner, hinner, rfl⟩ := Option.map_eq_some_iff.mp hheld
    exact hgentle inner hinner entry memory.1
  obtain ⟨o, count, e, htracks, hahead⟩ :=
    h.exists_ahead hcalmly (load_start_lt hunbounded hnumbered)
  have halike : s.Alike loggedScans { s with slices := s.slices + 1 } :=
    { htracks.alike_self hwatcher hgentle with }
  have hdrain := hahead.drain_eq trivial
  refine ⟨count, e, _, hahead.works, rfl, hdrain, fun budgets => ?_⟩
  obtain ⟨slices, u, hslices, hend, hcount⟩ :=
    hahead.exists_slices trivial (.nothing halike) budgets
  have hnone : e.delays = 0 := (hahead.at_end trivial).2.trans L.start_idle.2.2.2.2
  refine ⟨slices, u, hslices, ?_, hcount⟩
  exact {
    scanLog := hend.scanLog_eq
    marks := fun thing => by rw [hend.marks]
    scanned := hend.scanned
    delayed := ⟨hend.delays.trans hnone, hnone⟩
    peakDepth := hend.stack.peak_le }

theorem slices_agree_sample :
    let watcher : Option (Watcher Unit) := some ⟨.silent, ()⟩
    let L : Launch (Unit × List Notice) := sample 0 (watcher.map Watcher.logged)
    let calls : List MarkingCall := [.unnamed ⟨.object, 0⟩]
    ∃ s, L.Leads (calls.map .call) s ∧
      ∃ count e t, Works L.graph count none { s with slices := s.slices + 1 } e ∧
        t = { e with journal := e.journal.push (.drained e.toMarker.statistics) } ∧
        drain L.graph .unlimited s = .ok true t ∧
        ∀ budgets : Nat → Budget, ∃ slices u, Slices L.graph budgets slices s u ∧ u.Agrees t ∧
          ∀ units, (∀ index, budgets index = .work units) →
            slices = count / max 1 units + 1 := by
  intro watcher L calls
  obtain ⟨s, hs⟩ : ∃ s, (calls.map Step.call).forM (Step.make L.graph) L.start = .ok () s :=
    Yields.exists_end (by decide +kernel)
  have hleads : L.Leads (calls.map .call) s := hs
  have hnumbered : L.graph.Numbered := fun kind => by cases kind <;> decide +kernel
  have hwatcher : L.watcher = watcher.map Watcher.logged := rfl
  refine ⟨s, hleads, hleads.slices_agree rfl hnumbered hwatcher ?_⟩
  intro held hheld entry memory
  obtain rfl := Option.some.inj hheld
  rfl

end Launch

end MarkPhase
