import MarkPhase.Proofs.Extensions

/-!
Runs on a graph with more things. A marker finds on the larger graph whatever it finds on the
smaller one, and there its walks are allowed more steps. So a run that comes to an end on the
smaller graph comes to the same end on the larger one. Of a run that fails nothing is said: it
may have missed a thing that is there on the larger graph.
-/

namespace MarkPhase

variable {σ α β ω : Type}

/-- Wherever the first move comes to an end, the second comes to the same end. -/
def Persists (m n : EStateM Fault σ α) : Prop :=
  ∀ ⦃s : σ⦄ ⦃a : α⦄ ⦃t : σ⦄, m s = .ok a t → n s = .ok a t

namespace Persists

variable {m n : EStateM Fault σ α} {f f' : α → EStateM Fault σ β}

protected theorem refl (m : EStateM Fault σ α) : Persists m m :=
  fun _ _ _ => id

theorem throw (fault : Fault) : Persists (throw fault) n :=
  fun _ _ _ h => nomatch h

theorem bind (h : Persists m n) (hnext : ∀ a, Persists (f a) (f' a)) :
    Persists (m >>= f) (n >>= f') := by
  intro s b u hrun
  obtain ⟨a, t, hm, hf⟩ := exists_ok_of_bind hrun
  change EStateM.bind n f' s = _
  unfold EStateM.bind
  rw [h hm]
  exact hnext a hf

/-- The same move comes first. -/
theorem after (hnext : ∀ a, Persists (f a) (f' a)) : Persists (m >>= f) (m >>= f') :=
  bind (.refl m) hnext

theorem ite {c : Prop} [Decidable c] {m' n' : EStateM Fault σ α} (hthen : Persists m n)
    (helse : Persists m' n') : Persists (if c then m else m') (if c then n else n') := by
  split
  · exact hthen
  · exact helse

/-- What is needed is there for the second move as well. -/
theorem need {found found' : Option α} (h : ∀ a, found = some a → found' = some a) :
    Persists (MarkPhase.need found : EStateM Fault σ α) (MarkPhase.need found') := by
  cases found with
  | none => exact throw .outOfBounds
  | some a =>
    rw [h a rfl]
    exact .refl _

theorem forM {γ : Type} {visit visit' : γ → EStateM Fault σ PUnit} {xs : List γ}
    (h : ∀ x, Persists (visit x) (visit' x)) : Persists (xs.forM visit) (xs.forM visit') := by
  induction xs with
  | nil => exact .refl _
  | cons x xs ih => exact (h x).bind fun _ => ih

end Persists

namespace Graph.Extends

open MarkM

variable {g g' : Graph} (h : g.Extends g')

include h

theorem persists_claim (thing : Thing) (color : Color) :
    Persists (claim g thing color : MarkM ω Bool) (claim g' thing color) :=
  .bind (.need (h.compartmentOf? thing)) fun _ => .refl _

theorem persists_pushObject (id : ObjectId) :
    Persists (pushObject g id : MarkM ω Unit) (pushObject g' id) :=
  .after fun _ => .bind (h.persists_claim _ _) fun _ => .refl _

theorem persists_pushTypeObject (id : TypeObjectId) :
    Persists (pushTypeObject g id : MarkM ω Unit) (pushTypeObject g' id) :=
  .after fun _ => .bind (h.persists_claim _ _) fun _ => .refl _

theorem persists_pushXml (id : XmlId) :
    Persists (pushXml g id : MarkM ω Unit) (pushXml g' id) :=
  .after fun _ => .bind (h.persists_claim _ _) fun _ => .refl _

/-! Strings. -/

theorem persists_scanLinear {steps steps' : Nat} (hle : steps ≤ steps') (id : StringId) :
    Persists (scanLinear g steps id : MarkM ω Unit) (scanLinear g' steps' id) := by
  induction steps generalizing steps' id with
  | zero => exact .throw .endless
  | succ steps ih =>
    obtain ⟨more, rfl⟩ := Nat.exists_eq_add_of_le' hle
    refine .after fun _ => .bind (.need (h.string? id)) fun string => ?_
    cases string.base? with
    | none => exact .refl _
    | some base =>
      refine .bind (.need (h.string? base)) fun below => .ite (.bind (.throw _) fun _ => ?_) ?_ <;>
        exact .bind (h.persists_claim _ _) fun _ => .ite (ih (Nat.le_add_left ..) base) (.refl _)

theorem persists_enterPart (part : StringId) :
    Persists (enterPart g part : MarkM ω (Option StringId)) (enterPart g' part) := by
  have hsteps := Nat.succ_le_succ h.strings.length_le
  refine .bind (h.persists_claim _ _) fun claimed => .ite ?_ (.refl _)
  refine .bind (.need (h.string? part)) fun string => .ite (.refl _) ?_
  exact .bind (h.persists_scanLinear hsteps part) fun _ => .refl _

theorem persists_scanRope (depth : Nat) {steps steps' : Nat} (hle : steps ≤ steps')
    (id : StringId) :
    Persists (scanRope g depth steps id : MarkM ω Unit) (scanRope g' depth steps' id) := by
  induction steps generalizing steps' id with
  | zero => exact .throw .endless
  | succ steps ih =>
    obtain ⟨more, rfl⟩ := Nat.exists_eq_add_of_le' hle
    have hrest := fun next => ih (Nat.le_add_left steps more) next
    refine .after fun _ => .bind (.need (h.string? id)) fun string => ?_
    cases string.parts? with
    | none => exact .throw _
    | some parts =>
      refine .bind (h.persists_enterPart parts.2) fun last =>
        .bind (h.persists_enterPart parts.1) fun first => ?_
      cases first with
      | none =>
        cases last with
        | none =>
          refine .after fun s => .ite (.after fun entry => ?_) (.refl _)
          split
          · exact hrest _
          · exact .throw _
        | some next => exact hrest next
      | some next =>
        cases last with
        | none => exact hrest next
        | some waiting => exact .after fun _ => hrest next

theorem persists_pushString (id : StringId) :
    Persists (pushString g id : MarkM ω Unit) (pushString g' id) := by
  have hsteps := Nat.succ_le_succ h.strings.length_le
  refine .bind (h.persists_claim _ _) fun claimed => .ite ?_ (.refl _)
  refine .bind (.need (h.string? id)) fun string => .ite ?_ (h.persists_scanLinear hsteps id)
  exact .after fun s => h.persists_scanRope s.stack.size hsteps id

/-! Shapes. -/

theorem persists_shadeTwin (id : BaseShapeId) (base : BaseShapeCell) (twinId : BaseShapeId) :
    Persists (shadeTwin g id base twinId : MarkM ω Unit) (shadeTwin g' id base twinId) :=
  .bind (.need (h.baseShape? twinId)) fun _ => .refl _

omit h in
theorem persists_pushOptional {kind : Kind} {push push' : Ref kind → MarkM ω Unit}
    (hpush : ∀ ref, Persists (push ref) (push' ref)) (ref : Option (Ref kind)) :
    Persists (pushOptional push ref) (pushOptional push' ref) := by
  cases ref with
  | none => exact .refl _
  | some ref => exact hpush ref

theorem persists_scanBaseShape (id : BaseShapeId) :
    Persists (scanBaseShape g id : MarkM ω Unit) (scanBaseShape g' id) := by
  have hobject := persists_pushOptional (ω := ω) h.persists_pushObject
  refine .after fun _ => .bind (.need (h.baseShape? id)) fun base => ?_
  refine .bind (hobject base.getter) fun _ => .bind (hobject base.setter) fun _ =>
    .bind (hobject base.parent) fun _ => ?_
  exact persists_pushOptional (h.persists_shadeTwin id base) base.twin

theorem persists_pushBaseShape (id : BaseShapeId) :
    Persists (pushBaseShape g id : MarkM ω Unit) (pushBaseShape g' id) :=
  .after fun _ => .bind (h.persists_claim _ _) fun _ =>
    .ite (h.persists_scanBaseShape id) (.refl _)

theorem persists_pushProperty (id : PropertyId) :
    Persists (pushProperty g id : MarkM ω Unit) (pushProperty g' id) := by
  cases id with
  | string id => exact h.persists_pushString id
  | object id => exact h.persists_pushObject id
  | _ => exact .refl _

theorem persists_scanShape {steps steps' : Nat} (hle : steps ≤ steps') (id : ShapeId) :
    Persists (scanShape g steps id : MarkM ω Unit) (scanShape g' steps' id) := by
  induction steps generalizing steps' id with
  | zero => exact .throw .endless
  | succ steps ih =>
    obtain ⟨more, rfl⟩ := Nat.exists_eq_add_of_le' hle
    refine .after fun _ => .bind (.need (h.shape? id)) fun shape =>
      .bind (h.persists_pushBaseShape _) fun _ => .bind (h.persists_pushProperty _) fun _ => ?_
    cases shape.previous with
    | none => exact .refl _
    | some previous =>
      exact .after fun _ => .bind (h.persists_claim _ _) fun _ =>
        .ite (ih (Nat.le_add_left ..) previous) (.refl _)

theorem persists_pushShape (id : ShapeId) :
    Persists (pushShape g id : MarkM ω Unit) (pushShape g' id) :=
  .after fun _ => .bind (h.persists_claim _ _) fun _ =>
    .ite (h.persists_scanShape (Nat.succ_le_succ h.shapes.length_le) id) (.refl _)

/-! Visits. -/

theorem persists_visit {push push' : Thing → MarkM ω Unit}
    (hpush : ∀ thing, Persists (push thing) (push' thing)) (visit : Visit) :
    Persists (MarkM.visit g push visit) (MarkM.visit g' push' visit) := by
  cases visit with
  | report thing =>
    cases hfault : g.objection? thing with
    | some fault =>
      simp only [MarkM.visit, hfault]
      exact .throw fault
    | none =>
      simp only [MarkM.visit, hfault, h.objection? hfault]
      exact .bind (hpush thing) fun _ => .refl _
  | _ => exact .refl _

/-- Visits that come to an end do not break off on the way. -/
theorem persists_follow {push push' : Thing → MarkM ω Unit}
    (hpush : ∀ thing, Persists (push thing) (push' thing)) {visits visits' : List Visit}
    (hvisits : Visit.UpTo visits visits') :
    Persists (follow g push visits) (follow g' push' visits') := by
  induction hvisits with
  | nil => exact .refl _
  | cons visit _ ih => exact .bind (h.persists_visit hpush visit) fun _ => ih
  | broken fault visits => exact .throw fault

theorem persists_pushPlain (thing : Thing) :
    Persists (pushPlain g thing : MarkM ω Unit) (pushPlain g' thing) := by
  unfold pushPlain
  cases thing.kind with
  | object => exact h.persists_pushObject _
  | string => exact h.persists_pushString _
  | script => exact .refl _
  | shape => exact h.persists_pushShape _
  | baseShape => exact h.persists_pushBaseShape _
  | typeObject => exact h.persists_pushTypeObject _
  | xml => exact h.persists_pushXml _

theorem persists_pushScript (id : ScriptId) :
    Persists (pushScript g id : MarkM ω Unit) (pushScript g' id) :=
  .after fun _ => .bind (h.persists_claim _ _) fun _ =>
    .ite (.after fun _ => h.persists_follow h.persists_pushPlain (h.upTo_scriptVisits true id))
      (.refl _)

theorem persists_pushThing (thing : Thing) :
    Persists (pushThing g thing : MarkM ω Unit) (pushThing g' thing) := by
  unfold pushThing
  cases thing.kind with
  | script => exact h.persists_pushScript _
  | _ => exact h.persists_pushPlain thing

theorem persists_make (call : MarkingCall) :
    Persists (make g call : MarkM ω Unit) (make g' call) :=
  .after fun s => h.persists_follow h.persists_pushThing (h.upTo_visits true s.context call)

theorem persists_scanTypeObject (id : TypeObjectId) :
    Persists (scanTypeObject g id : MarkM ω Unit) (scanTypeObject g' id) := by
  have hobject := persists_pushOptional (ω := ω) h.persists_pushObject
  refine .after fun _ => .bind (.need (h.typeObject? id)) fun type =>
    .bind (.forM h.persists_pushProperty) fun _ => .bind (hobject type.proto) fun _ => ?_
  have hlast : Persists (do
        pushOptional (pushObject g) type.function
        if !type.isLazy then pushOptional (pushObject g) type.singleton : MarkM ω Unit) (do
        pushOptional (pushObject g') type.function
        if !type.isLazy then pushOptional (pushObject g') type.singleton) :=
    .bind (hobject type.function) fun _ => .ite (hobject type.singleton) (.refl _)
  cases type.newScript with
  | none => exact hlast
  | some newScript =>
    exact .bind (h.persists_pushObject _) fun _ => .bind (h.persists_pushShape _) fun _ => hlast

theorem persists_scanXml (id : XmlId) :
    Persists (scanXml g id : MarkM ω Unit) (scanXml g' id) :=
  .after fun _ => h.persists_follow h.persists_pushThing (h.upTo_xmlVisits id)

/-! Objects. -/

theorem persists_readValues (owner : ObjectId) (object : ObjectCell) (region : Region)
    (count index : Nat) :
    Persists (readValues g owner object region count index : MarkM ω (Option ObjectId))
      (readValues g' owner object region count index) := by
  induction count generalizing index with
  | zero => exact .refl _
  | succ count ih =>
    unfold readValues
    cases object.regionValue region index with
    | string id => exact .bind (h.persists_pushString id) fun _ => ih _
    | object id =>
      exact .after fun _ => .bind (h.persists_claim _ _) fun _ => .ite (.refl _) (ih _)
    | _ => exact ih _

theorem persists_scanRange (range : ValueRange) :
    Persists (scanRange g range : MarkM ω (Option ObjectId)) (scanRange g' range) :=
  .bind (.need (h.object? range.owner)) fun _ =>
    .ite (.bind (.refl _) fun _ => h.persists_readValues ..) (h.persists_readValues ..)

theorem persists_openObject (id : ObjectId) :
    Persists (openObject g id : MarkM ω (Option ValueRange)) (openObject g' id) := by
  refine .after fun _ => .bind (.need (h.object? id)) fun object =>
    .bind (h.persists_pushTypeObject _) fun _ => .bind (h.persists_pushShape _) fun _ =>
    .bind (.need (h.classOf? object)) fun objectClass => .ite (.refl _) ?_
  exact .bind (h.persists_follow h.persists_pushThing (.refl _)) fun _ => .refl _

theorem persists_scanObject (id : ObjectId) :
    Persists (scanObject g id : MarkM ω (Option ObjectId)) (scanObject g' id) := by
  refine .bind (h.persists_openObject id) fun range => ?_
  cases range with
  | none => exact .refl _
  | some range => exact h.persists_scanRange range

/-! Draining. -/

theorem persists_process (entry : StackEntry) :
    Persists (process g entry : MarkM ω (Option ObjectId)) (process g' entry) := by
  cases entry with
  | object id => exact h.persists_scanObject id
  | values range => exact h.persists_scanRange range
  | typeObject id => exact .bind (h.persists_scanTypeObject id) fun _ => .refl _
  | xml id => exact .bind (h.persists_scanXml id) fun _ => .refl _
  | rope id => exact .refl _

theorem persists_advance (found : Option ObjectId) :
    Persists (advance g found : MarkM ω (Option ObjectId)) (advance g' found) := by
  cases found with
  | some id => exact h.persists_scanObject id
  | none =>
    refine .after fun entry => ?_
    cases entry with
    | none => exact .refl _
    | some entry => exact h.persists_process entry

theorem persists_drainStack {units units' : Nat} (hle : units ≤ units') (found : Option ObjectId)
    (budget : Budget) : Persists (drainStack g units found budget : MarkM ω (Bool × Budget))
      (drainStack g' units' found budget) := by
  induction units generalizing units' found budget with
  | zero => exact .throw .endless
  | succ units ih =>
    obtain ⟨more, rfl⟩ := Nat.exists_eq_add_of_le' hle
    exact .after fun _ => .ite (.refl _) (.bind (h.persists_advance found) fun _ =>
      .ite (.refl _) (ih (Nat.le_add_left ..) _ _))

theorem persists_drainDelayed {units units' : Nat} (hle : units ≤ units') (budget : Budget) :
    Persists (drainDelayed g units budget : MarkM ω (Bool × Budget))
      (drainDelayed g' units' budget) := by
  induction units generalizing units' budget with
  | zero => exact .throw .endless
  | succ units ih =>
    obtain ⟨more, rfl⟩ := Nat.exists_eq_add_of_le' hle
    refine .after fun next => ?_
    cases next with
    | none => exact .refl _
    | some thing =>
      refine .after fun _ => .after fun _ => .bind ?_ fun _ => .ite (.refl _) ?_
      · exact h.persists_follow h.persists_pushThing (h.upTo_childVisits true thing)
      · exact ih (Nat.le_add_left ..) _

theorem persists_drainRounds {units units' : Nat} (hunits : units ≤ units')
    {rounds rounds' : Nat} (hle : rounds ≤ rounds') (budget : Budget) :
    Persists (drainRounds g units rounds budget : MarkM ω Bool)
      (drainRounds g' units' rounds' budget) := by
  induction rounds generalizing rounds' budget with
  | zero => exact .throw .endless
  | succ rounds ih =>
    obtain ⟨more, rfl⟩ := Nat.exists_eq_add_of_le' hle
    refine .bind (h.persists_drainStack hunits none budget) fun answer => .ite (.refl _) ?_
    refine .after fun s => .ite (.refl _) (.after fun _ => ?_)
    exact .bind (h.persists_drainDelayed hunits answer.2) fun rest =>
      .ite (.refl _) (ih (Nat.le_add_left ..) rest.2)

/-- A move with as many units as there may be work, which is more on the larger graph. -/
theorem persists_workBound {f f' : Nat → MarkM ω α}
    (hnext : ∀ units units', units ≤ units' → Persists (f units) (f' units')) :
    Persists (workBound g >>= f) (workBound g' >>= f') := by
  intro s a t hrun
  have hcount := h.thingCount_le
  exact hnext _ _ (by omega) (show f (4 * g.thingCount + 2 * s.stack.size + s.delayed.size + 3) s =
    .ok a t from hrun)

theorem persists_drain (budget : Budget) :
    Persists (drain g budget : MarkM ω Bool) (drain g' budget) :=
  .after fun _ => h.persists_workBound fun _ _ hle => h.persists_drainRounds hle hle budget

theorem persists_traceDelayed (budget : Budget) :
    Persists (traceDelayed g budget : MarkM ω (Bool × Budget)) (traceDelayed g' budget) :=
  h.persists_workBound fun _ _ hle => h.persists_drainDelayed hle budget

theorem persists_step (step : Step) :
    Persists (step.make g : MarkM ω Unit) (step.make g') := by
  cases step with
  | call request => exact h.persists_make request
  | slice budget => exact .bind (h.persists_drain budget) fun _ => .refl _
  | delayedSlice budget => exact .bind (h.persists_traceDelayed budget) fun _ => .refl _

end Graph.Extends

end MarkPhase
