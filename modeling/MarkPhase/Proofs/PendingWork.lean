import MarkPhase.Proofs.Sessions

/-!
What a marker carries from one step of a session to the next. Its stack and its delayed
list are all that has to be kept: each child that is still to be marked can be read off
them, and they hold nothing twice.
-/

namespace MarkPhase

variable {ω : Type}

namespace StackEntry

/-- The entry stands for the whole of a thing. -/
def isWhole : StackEntry → Bool
  | .object _ => true
  | .typeObject _ => true
  | .xml _ => true
  | _ => false

end StackEntry

namespace Setting

variable {S : Setting ω} {o : Outline} {s : Marking ω}

theorem Tracks.mem_work_iff (h : S.Tracks [] [] o s) {duty : Duty} :
    duty ∈ o.work ↔ ∃ entry ∈ s.stack.items, entry.duty = duty := by
  rw [h.work, List.nil_append, Multiset.mem_coe, Marker.stacked, List.mem_map]

private theorem Tracks.awaited (h : S.Tracks [] [] o s) (hbalanced : o.Balanced S.toTerrain)
    (hwords : S.graph.WordSized) (hrope : ∀ id, .rope id ∉ s.stack.items) {thing child : Thing}
    (hthing : o.Marked thing) (hchild : S.graph.Child thing child)
    (hallowed : S.graph.Allowed S.filter child) (hnew : ¬ o.Marked child) :
    thing ∈ s.delayed.things ∨
      (∃ entry ∈ s.stack.items, entry.isWhole = true ∧ entry.owner = thing) ∨
      ∃ range, .values range ∈ s.stack.items ∧ range.owner.thing = thing ∧
        S.graph.Holds range child := by
  rcases hbalanced.pending hwords thing child hthing hchild hallowed hnew with hdelayed | hduty
  · exact Or.inl (h.delayed ▸ hdelayed)
  · obtain ⟨duty, hduty, howner, hholds⟩ := hduty
    obtain ⟨entry, hentry, rfl⟩ := h.mem_work_iff.mp hduty
    rw [entry.owner_duty] at howner
    cases entry with
    | rope id => exact absurd hentry (hrope id)
    | values range => exact Or.inr (Or.inr ⟨range, hentry, howner, hholds range rfl⟩)
    | _ => exact Or.inr (Or.inl ⟨_, hentry, rfl, howner⟩)

end Setting

namespace Launch

variable {L : Launch ω} {steps : List Step} {s : Marking ω}

end Launch

end MarkPhase
