import MarkPhase.Proofs.Pushing

/-!
Scanning whole things. A scan ends when every child that the filter allows is marked;
then the thing owes nothing any more. Base shapes pass their mark on to a twin, whose
children are the same. Scripts, XML nodes and delayed things are scanned by following
the visits that a tracer is shown.
-/

namespace MarkPhase

variable {ω : Type} {S : Setting ω} {hand : List Duty} {o : Outline} {s : Marking ω}
  {faults : Fault → Marking ω → Prop}

namespace Setting

open MarkM

/-! Shapes and base shapes. -/

/-- The twin of a base shape is marked along with it, once the children that they share
are marked. -/
private theorem Tracks.yields_shadeTwin {id twinId : BaseShapeId} {base : BaseShapeCell}
    (h : S.Tracks (.scanning id.thing :: hand) [] o s) (hid : S.graph.baseShape? id = some base)
    (htwin : base.twin = some twinId) (hhome : S.home id.thing)
    (hreached : S.Reached (refThings base.getter ++ refThings base.setter ++
      refThings base.parent) o) :
    Yields (shadeTwin S.graph id base twinId) s
      (fun _ => S.Lands o (.scanning id.thing :: hand) [] fun o' => o'.Marked twinId.thing)
      faults := by
  obtain ⟨twin, htwinId, hagrees⟩ := (S.sound.baseShape hid).2 twinId htwin
  have hchild : S.graph.Child id.thing twinId.thing := by
    rw [S.sound.child_baseShape hid, BaseShapeCell.references, htwin]
    simp [refThings]
  have hallowed : S.graph.Allowed S.filter twinId.thing := by
    obtain ⟨compartment, hcompartment, hallows⟩ := S.home_allowed id.thing hhome
    refine ⟨compartment, ?_, hallows⟩
    have hbase : S.graph.compartmentOf? id.thing = some base.compartment :=
      congrArg (Option.map BaseShapeCell.compartment) hid
    have hother : S.graph.compartmentOf? twinId.thing = some twin.compartment :=
      congrArg (Option.map BaseShapeCell.compartment) htwinId
    rw [hother, hagrees.compartment, ← hbase, hcompartment]
  have hdone : o.Done S.toTerrain twinId.thing := by
    refine hreached.done fun child hchild => ?_
    rw [S.sound.child_baseShape htwinId, BaseShapeCell.references, hagrees.getter,
      hagrees.setter, hagrees.parent, hagrees.unowned] at hchild
    simpa [refThings] using hchild
  rw [shadeTwin, yields_bind, htwinId, yields_need_some,
    if_pos ⟨hagrees.compartment, hagrees.getter, hagrees.setter, hagrees.parent⟩, yields_bind,
    yields_color, yields_modify]
  have hmarks : s.marks.isMarked twinId.thing = true ↔ o.Marked twinId.thing := by
    rw [h.marks]
    rfl
  by_cases hmarked : s.marks.isMarked twinId.thing = true
  · rw [if_pos hmarked]
    exact ⟨o, .refl, h, hmarks.mp hmarked⟩
  · rw [if_neg hmarked]
    have hnew : ¬ o.Marked twinId.thing := fun hold => hmarked (hmarks.mpr hold)
    have hmove : S.Move o { o.mark twinId.thing s.color with
        shaded := twinId.thing :: o.shaded } :=
      .shade s.color hid htwin (by simp [h.work])
        (S.home_child id.thing twinId.thing hhome hchild hallowed) hnew hdone
    refine ⟨_, .single hmove, ?_, Outline.marked_mark.mpr (Or.inl rfl)⟩
    exact { h with
      marks := by
        change s.marks.set twinId.thing _ = o.marks.set twinId.thing _
        rw [h.marks]
      bounded := h.bounded_of_move hmove }

private theorem Tracks.yields_scanBaseShape {id : BaseShapeId}
    (h : S.Tracks (.fresh id.thing :: hand) [] o s) (hhome : S.home id.thing) :
    Yields (scanBaseShape S.graph id) s (fun _ => S.Lands o hand [] fun _ => True)
      S.Overflows := by
  obtain ⟨base, hid⟩ := Graph.exists_baseShape (S.home_allowed id.thing hhome).contains
  have hchildren : ∀ child, S.graph.Child id.thing child ↔ child ∈ base.references :=
    fun child => S.sound.child_baseShape hid
  have hwelcome : ∀ thing ∈ base.references, S.Welcome thing := fun thing hthing =>
    Terrain.welcome_child hhome ((hchildren thing).mpr hthing)
  simp only [BaseShapeCell.references, List.mem_append] at hwelcome
  rw [scanBaseShape, yields_bind]
  apply h.yields_noteScan.imp
  intro _ s₁ hend
  obtain ⟨-, o₁, hrun₁, h₁, -⟩ := hend
  rw [yields_bind, hid, yields_need_some]
  refine (Covers.optional covers_pushObject base.getter).yields_then h₁
    (fun thing hthing => hwelcome thing (by simp only [hthing, true_or]))
    fun {o₂ _} hrun₂ h₂ hgetter => ?_
  refine (Covers.optional covers_pushObject base.setter).yields_then h₂
    (fun thing hthing => hwelcome thing (by simp only [hthing, true_or, or_true]))
    fun {o₃ _} hrun₃ h₃ hsetter => ?_
  refine (Covers.optional covers_pushObject base.parent).yields_then h₃
    (fun thing hthing => hwelcome thing (by simp only [hthing, true_or, or_true]))
    fun {o₄ s₄} hrun₄ h₄ hparent => ?_
  have hrun : S.Run o o₄ := ((hrun₁.trans hrun₂).trans hrun₃).trans hrun₄
  have hreached : S.Reached (refThings base.getter ++ refThings base.setter ++
      refThings base.parent) o₄ :=
    ((hgetter.of_run (hrun₃.trans hrun₄)).append (hsetter.of_run hrun₄)).append hparent
  have hclose : ∀ {o' : Outline} {t : Marking ω}, S.Run o o' →
      S.Tracks (.scanning id.thing :: hand) [] o' t → S.Reached base.references o' →
      S.Lands o hand [] (fun _ => True) t := fun hrun' htracks hall =>
    ((htracks.close (hall.done fun child => (hchildren child).mp)).imp
      fun _ _ _ => trivial).head hrun'
  cases htwin : base.twin with
  | none =>
    apply hclose hrun h₄
    simpa [BaseShapeCell.references, htwin, refThings] using hreached
  | some twinId =>
    apply (h₄.yields_shadeTwin hid htwin hhome hreached).imp
    intro _ s₅ hend
    obtain ⟨o₅, hrun₅, h₅, hmarked⟩ := hend
    apply hclose (hrun.trans hrun₅) h₅
    rw [BaseShapeCell.references, htwin]
    refine (hreached.of_run hrun₅).append fun thing hthing _ => ?_
    obtain rfl : twinId.thing = thing := by simpa using hthing
    exact hmarked

theorem covers_pushBaseShape (id : BaseShapeId) :
    S.Covers (pushBaseShape S.graph id) [id.thing] :=
  .of_color fun _ => .of_claim fun htracks hhome _ => htracks.yields_scanBaseShape hhome

theorem covers_pushProperty (property : PropertyId) :
    S.Covers (pushProperty S.graph property) property.thing?.toList := by
  cases property with
  | void => exact .pure
  | int value => exact .pure
  | string id => exact covers_pushString id
  | object id => exact covers_pushObject id

/-- A shape is scanned with its predecessors, up to one that was marked before. -/
private theorem Tracks.yields_scanShape (steps : Nat) {id : ShapeId}
    (h : S.Tracks (.fresh id.thing :: hand) [] o s) (hhome : S.home id.thing)
    (hsteps : o.unmarkedOf S.graph .shape < steps) :
    Yields (scanShape S.graph steps id) s (fun _ => S.Lands o hand [] fun _ => True)
      S.Overflows := by
  induction steps generalizing id o s with
  | zero => exact absurd hsteps (Nat.not_lt_zero _)
  | succ steps ih =>
    obtain ⟨shape, hid⟩ := Graph.exists_shape (S.home_allowed id.thing hhome).contains
    have hchildren : ∀ child, S.graph.Child id.thing child ↔ child ∈ shape.references :=
      fun child => S.sound.child_shape hid
    have hwelcome : ∀ thing ∈ shape.references, S.Welcome thing := fun thing hthing =>
      Terrain.welcome_child hhome ((hchildren thing).mpr hthing)
    rw [scanShape, yields_bind]
    apply h.yields_noteScan.imp
    intro _ s₁ hend
    obtain ⟨-, o₁, hrun₁, h₁, -⟩ := hend
    rw [yields_bind, hid, yields_need_some]
    refine (covers_pushBaseShape shape.base).yields_then h₁
      (fun thing hthing => hwelcome thing (by simp_all [ShapeCell.references]))
      fun {o₂ _} hrun₂ h₂ hbase => ?_
    refine (covers_pushProperty shape.property).yields_then h₂
      (fun thing hthing => hwelcome thing (by simp_all [ShapeCell.references]))
      fun {o₃ s₃} hrun₃ h₃ hproperty => ?_
    have hrun : S.Run o o₃ := (hrun₁.trans hrun₂).trans hrun₃
    have hreached : S.Reached ([shape.base.thing] ++ shape.property.thing?.toList) o₃ :=
      (hbase.of_run hrun₃).append hproperty
    have hclose : ∀ {o' : Outline} {hand : List Duty} {t : Marking ω}, S.Run o₃ o' →
        S.Tracks (.scanning id.thing :: hand) [] o' t →
        (∀ previous, shape.previous = some previous →
          S.graph.Allowed S.filter previous.thing → o'.Marked previous.thing) →
        S.Lands o' hand [] (fun _ => True) t := by
      intro o' hand t hrun' htracks hprevious
      have hall : S.Reached shape.references o' := by
        rw [ShapeCell.references, ← List.singleton_append, ← List.append_assoc]
        refine (hreached.of_run hrun').append fun thing hthing => ?_
        obtain ⟨previous, hsome, rfl⟩ := mem_refThings.mp hthing
        exact hprevious previous hsome
      exact (htracks.close (hall.done fun child => (hchildren child).mp)).imp fun _ _ _ => trivial
    cases hprevious : shape.previous with
    | none => exact (hclose .refl h₃ (by simp [hprevious])).head hrun
    | some previous =>
      have hprevWelcome := hwelcome previous.thing (by simp [ShapeCell.references, hprevious])
      rw [yields_bind, yields_color, yields_bind]
      apply (h₃.yields_claim _ hprevWelcome.1).imp
      intro claimed t hend
      rcases hend with ⟨rfl, hallowed, hnew, rfl⟩ | ⟨rfl, hmarked, rfl⟩
      · rw [if_pos rfl]
        obtain ⟨o₄, hrun₄, h₄, hmarked⟩ := h₃.claimed s₃.color (hprevWelcome.2 hallowed) hnew
        obtain ⟨o₅, hrun₅, h₅, -⟩ :=
          hclose hrun₄ (h₄.perm (.swap ..)) (by simp [hprevious, hmarked])
        have hfewer := Outline.unmarkedOf_lt hrun₄ hprevWelcome.1 hnew hmarked
        have hle := Outline.unmarkedOf_run hrun S.graph .shape
        have hle₅ := Outline.unmarkedOf_run hrun₅ S.graph .shape
        change o₄.unmarkedOf S.graph .shape < o₃.unmarkedOf S.graph .shape at hfewer
        refine (ih h₅ (hprevWelcome.2 hallowed) (by omega)).imp fun _ _ hlands => ?_
        exact hlands.head ((hrun.trans hrun₄).trans hrun₅)
      · rw [if_neg Bool.false_ne_true]
        exact (hclose .refl h₃ (by simpa [hprevious] using hmarked)).head hrun

theorem covers_pushShape (id : ShapeId) : S.Covers (pushShape S.graph id) [id.thing] :=
  .of_color fun _ => .of_claim fun {_ o _} htracks hhome _ =>
    htracks.yields_scanShape _ hhome (Nat.lt_succ_of_le (o.unmarkedOf_le S.graph .shape))

end Setting

end MarkPhase
