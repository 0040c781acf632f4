import MarkPhase.Proofs.Slicing

/-!
Progress. A thing stands for four units of work at most, from the moment a marker starts
until it has nothing left to do. No slice ends early without having made one of them, so
slices come to an end, whatever their budgets are and whatever the observer refuses.
-/

namespace MarkPhase

variable {ω : Type}

open MarkM

namespace Setting

variable {S : Setting ω} {o : Outline} {s : Marking ω}

/-- Where segments fit memory, a slice ends, and the load pays for its units. -/
theorem Tracks.exists_countDrain (h : S.Tracks [] [] o s) (hguarded : o.Guarded S.toTerrain)
    (hroomy : S.roomy) (budget : Budget) :
    ∃ drained units t o', countDrain S.graph budget s = .ok (drained, units) t ∧
      drain S.graph budget s = .ok drained t ∧ S.Tracks [] [] o' t ∧ o'.Guarded S.toTerrain ∧
      o.Spends o' S.graph budget drained units := by
  have hyields : Yields (countDrain S.graph budget) s _ _ := h.yields_countDrain hguarded
  obtain ⟨⟨drained, units⟩, t, hcount, o', hrun, htracks, -, hspends⟩ :=
    hyields.exists_ok (not_overflows hroomy)
  have hdrain : drain S.graph budget s = .ok drained t := by
    rw [← fst_countDrain]
    exact map_eq_ok hcount
  exact ⟨drained, units, t, o', hcount, hdrain, htracks, hguarded.run hrun, hspends⟩

/-- Every slice but the last uses up some of the load. -/
theorem Tracks.exists_slices (h : S.Tracks [] [] o s) (hguarded : o.Guarded S.toTerrain)
    (hroomy : S.roomy) (budgets : Nat → Budget) :
    ∃ calls t, Slices S.graph budgets calls s t ∧ calls ≤ o.load S.graph + 1 := by
  induction hload : o.load S.graph using Nat.strong_induction_on generalizing o s budgets with
  | _ load ih =>
    obtain ⟨drained, units, t, o₁, -, hdrain, h₁, hguarded₁, hspends⟩ :=
      h.exists_countDrain hguarded hroomy (budgets 0)
    cases drained with
    | true => exact ⟨1, t, .last hdrain, Nat.le_add_left ..⟩
    | false =>
      have hless : o₁.load S.graph < load := by
        have hpos := (hspends.early rfl).1
        have hle := hspends.load
        omega
      obtain ⟨calls, u, hslices, hcalls⟩ :=
        ih _ hless h₁ hguarded₁ (fun index => budgets (index + 1)) rfl
      exact ⟨calls + 1, u, .more hdrain hslices, by omega⟩

end Setting

namespace Launch

variable {L : Launch ω} {steps : List Step} {s : Marking ω}

/-- The units of all steps of a session are paid for by the things of the graph, and what
they leave unpaid bounds the load. -/
theorem Leads.exists_spent (h : L.Leads steps s) : ∃ spent o,
    Step.countAll L.graph steps L.start = .ok spent s ∧
    (L.scene steps).Tracks [] [] o s ∧ o.Guarded (L.scene steps).toTerrain ∧
    spent + o.load L.graph ≤ 4 * L.graph.thingCount := by
  have hbalanced : (Outline.start L.ledger.marks).Balanced
      (L.scene steps).toTerrain := Outline.balanced_start L.unmarked
  have hmap : ((fun _ => ()) <$> Step.countAll L.graph steps) L.start = .ok () s := by
    rw [Step.map_countAll]
    exact h
  obtain ⟨spent, hspent⟩ := exists_ok_of_map hmap
  obtain ⟨o, hrun, htracks, -, hload⟩ := ((tracks_start False.elim).yields_countAll
    hbalanced.guarded fun thing hthing hallowed => .root hthing hallowed).of_ok hspent
  refine ⟨spent, o, hspent, htracks, hbalanced.guarded.run hrun, ?_⟩
  rw [Nat.add_comm]
  exact Nat.le_trans hload (Outline.load_start_le L.ledger.marks L.graph)

/-- From nothing marked, all the units ever made come to no more than four for each thing.
A slice always ends; one that leaves work has made a unit and had a limited budget, so with
any budgets, slices end after no more than that number of calls that leave work. -/
theorem Leads.progresses (h : L.Leads steps s)
    (hfits : fitsMemory L.configuration.segmentSize entryBytes = true) :
    ∃ spent, Step.countAll L.graph steps L.start = .ok spent s ∧
      spent ≤ 4 * L.graph.thingCount ∧
      (∀ budget, ∃ drained units t, countDrain L.graph budget s = .ok (drained, units) t ∧
        drain L.graph budget s = .ok drained t ∧ (drained = false → 0 < units) ∧
        spent + units ≤ 4 * L.graph.thingCount ∧
        (budget.isUnlimited = true → drained = true)) ∧
      ∀ budgets : Nat → Budget, ∃ calls t, Slices L.graph budgets calls s t ∧
        spent + calls ≤ 4 * L.graph.thingCount + 1 := by
  obtain ⟨spent, o, hspent, htracks, hguarded, hload⟩ := h.exists_spent
  have hroomy : (L.scene steps).roomy := L.fitsMemory_marker.trans hfits
  refine ⟨spent, hspent, by omega, fun budget => ?_, fun budgets => ?_⟩
  · obtain ⟨drained, units, t, o', hcount, hdrain, -, -, hspends⟩ :=
      htracks.exists_countDrain hguarded hroomy budget
    have hpaid : o'.load L.graph + units ≤ o.load L.graph := hspends.load
    refine ⟨drained, units, t, hcount, hdrain, fun hleft => (hspends.early hleft).1, by omega,
      fun hunlimited => ?_⟩
    by_contra hleft
    rw [(hspends.early (Bool.eq_false_of_not_eq_true hleft)).2] at hunlimited
    cases hunlimited
  · obtain ⟨calls, t, hslices, hcalls⟩ := htracks.exists_slices hguarded hroomy budgets
    have hleft : calls ≤ o.load L.graph + 1 := hcalls
    exact ⟨calls, t, hslices, by omega⟩

theorem progresses_sample :
    let L : Launch Unit := sample 1 (some ⟨.rangeless, ()⟩)
    let steps : List Step := [.call (.unnamed ⟨.object, 0⟩), .slice (.work 0)]
    ∃ s, L.Leads steps s ∧ fitsMemory L.configuration.segmentSize entryBytes = true ∧
      ∃ spent, Step.countAll L.graph steps L.start = .ok spent s ∧
        spent ≤ 4 * L.graph.thingCount ∧
        (∀ budget, ∃ drained units t, countDrain L.graph budget s = .ok (drained, units) t ∧
          drain L.graph budget s = .ok drained t ∧ (drained = false → 0 < units) ∧
          spent + units ≤ 4 * L.graph.thingCount ∧
          (budget.isUnlimited = true → drained = true)) ∧
        ∀ budgets : Nat → Budget, ∃ calls t, Slices L.graph budgets calls s t ∧
          spent + calls ≤ 4 * L.graph.thingCount + 1 := by
  intro L steps
  obtain ⟨s, hs⟩ : ∃ s, steps.forM (Step.make L.graph) L.start = .ok () s :=
    Yields.exists_end (by decide +kernel)
  have hleads : L.Leads steps s := hs
  have hfits : fitsMemory L.configuration.segmentSize entryBytes = true := by decide
  exact ⟨s, hleads, hfits, hleads.progresses hfits⟩

/-- Where no segment fits memory, a drain with work to put on the stack does not end. -/
theorem drain_fails_without_memory :
    let L : Launch Unit := cramped (some ⟨.objectless, ()⟩)
    0 < L.configuration.segmentSize ∧
      ∃ s t, L.Leads [.call (.unnamed ⟨.object, 0⟩)] s ∧
        drain L.graph .unlimited s = .error .capacityOverflow t := by
  intro L
  obtain ⟨_, s, t, hs, ht⟩ : ∃ a s t,
      [Step.call (.unnamed ⟨.object, 0⟩)].forM (Step.make L.graph) L.start = .ok a s ∧
        drain L.graph .unlimited s = .error .capacityOverflow t :=
    Yields.exists_fault (by decide +kernel)
  exact ⟨by decide, s, t, hs, ht⟩

end Launch

end MarkPhase
