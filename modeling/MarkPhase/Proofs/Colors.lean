import MarkPhase.Proofs.Changes
import MarkPhase.Proofs.Progress
import MarkPhase.Proofs.Safety

/-!
Two colours, one after the other. No move touches the shade of a thing that is marked, and
a thing that it marks gets the colour of the marker, or black if the thing is a string. So
the things that a first drain leaves black stay black in a second one that paints gray, and
this one adds what is reached from its roots alone. Both drains come to an end where
segments fit memory.
-/

namespace MarkPhase

variable {ω : Type}

theorem ThingTable.isMarked_eq_false_iff {marks : MarkTable} {thing : Thing} :
    marks.isMarked thing = false ↔ marks.get thing = .unmarked := by
  unfold isMarked
  cases marks.get thing <;> simp [Shade.isMarked]

/-- Between the two states nothing has happened to the shades of marked things, and what has
been marked has got the shade that the marker gives it. -/
structure Marking.Paints (s t : Marking ω) : Prop where
  color : t.color = s.color
  shade : ∀ thing, t.marks.get thing = s.marks.get thing ∨
    (s.marks.get thing = .unmarked ∧ t.marks.get thing = s.color.shade thing)

namespace Marking.Paints

variable {s t : Marking ω}

theorem of_eq (hcolor : t.color = s.color) (hmarks : t.marks = s.marks) : s.Paints t :=
  ⟨hcolor, fun _ => Or.inl (by rw [hmarks])⟩

instance : IsPreorder (Marking ω) Paints where
  refl s := of_eq rfl rfl
  trans s t u hfirst hsecond := by
    refine ⟨hsecond.color.trans hfirst.color, fun thing => ?_⟩
    rcases hsecond.shade thing with hsame | ⟨hbefore, hafter⟩
    · rw [hsame]
      exact hfirst.shade thing
    · rcases hfirst.shade thing with hsame | ⟨-, hpainted⟩
      · exact Or.inr ⟨hsame ▸ hbefore, by rw [hafter, hfirst.color]⟩
      · rw [hpainted] at hbefore
        cases hbefore

/-- What is marked stays as it is. -/
theorem get_eq (h : s.Paints t) {thing : Thing} (hmarked : s.marks.isMarked thing = true) :
    t.marks.get thing = s.marks.get thing := by
  refine (h.shade thing).resolve_right fun hunmarked => ?_
  rw [ThingTable.isMarked_eq_false_iff.mpr hunmarked.1] at hmarked
  cases hmarked

/-- A thing that nobody has marked gets its shade. -/
theorem set {thing : Thing} (hnew : ¬ s.marks.isMarked thing = true) :
    s.Paints { s with marks := s.marks.set thing (s.color.shade thing) } := by
  refine ⟨rfl, fun other => ?_⟩
  change (s.marks.set thing _).get other = _ ∨ _ ∧ (s.marks.set thing _).get other = _
  rw [ThingTable.get_set]
  by_cases heq : thing = other
  · subst heq
    have hunmarked := ThingTable.isMarked_eq_false_iff.mp (Bool.eq_false_of_not_eq_true hnew)
    exact Or.inr ⟨hunmarked, if_pos rfl⟩
  · rw [if_neg heq]
    exact Or.inl rfl

end Marking.Paints

theorem Marking.admits_paints : Admits (Paints : Marking ω → Marking ω → Prop) :=
  .of_eq fun hmarks _ hcolor => .of_eq hcolor hmarks

/-- Every session paints as it should. -/
theorem MarkM.lasting_paints (g : Graph) :
    Lasting g (fun m : MarkM ω _ => Respects Marking.Paints m) :=
  Marking.admits_paints.lasting_respects g (fun _ _ hnew => .set hnew) fun _ _ => .of_eq rfl rfl

namespace Launch

open MarkM

variable {L : Launch ω} {steps more : List Step} {s s₁ t u : Marking ω} {budget last : Budget}

theorem Ready.exists_drained (h : L.Ready s)
    (hfits : fitsMemory L.configuration.segmentSize entryBytes = true) :
    ∃ t, drain L.graph .unlimited s = .ok true t ∧ L.Ready t := by
  have hroomy : (L.resuming s h.filter).roomy := h.fits_iff.trans hfits
  obtain ⟨drained, units, t, o, -, hdrain, htracks, hguarded, hspends⟩ :=
    h.tracks.exists_countDrain h.guarded hroomy .unlimited
  cases drained with
  | true => exact ⟨t, hdrain, h.of_tracks htracks hguarded⟩
  | false => cases (hspends.early rfl).2

/-- The objects of the sample and a string that the first of them holds, before a black
marker. -/
def lettered (watcher : Option (Watcher ω)) : Launch ω :=
  { sample 1 watcher with
    history := (sample 1 (none : Option (Watcher Unit))).history ++
      [.string .atoms "a", .slot ⟨0⟩ 1 (.string ⟨0⟩)]
    grounded := by decide +kernel
    color := .black }

end Launch

end MarkPhase
