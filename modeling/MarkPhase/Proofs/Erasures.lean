import MarkPhase.Proofs.Chronicles

/-!
Moves and their chronicles go together. A move that keeps a chronicle does what the move
of the marker does, apart from what it writes down. This is shown along the definitions,
one after the other.
-/

namespace MarkPhase

namespace ChronM

variable {ω α β : Type}

/-- What remains of an outcome when the events are forgotten. -/
def forget : EStateM.Result Fault (Chronicle ω) α → EStateM.Result Fault (Marking ω) α
  | .ok a c => .ok a c.toMarking
  | .error fault c => .error fault c.toMarking

/-- The move does what `n` does, whatever it writes down. -/
def Erases (m : ChronM ω α) (n : MarkM ω α) : Prop :=
  ∀ c, forget (m c) = n c.toMarking

namespace Erases

variable {m : ChronM ω α} {n : MarkM ω α}

/-- A move that ends does so with its chronicle. -/
theorem exists_ok (h : Erases m n) {c : Chronicle ω} {a : α} {t : Marking ω}
    (hn : n c.toMarking = .ok a t) : ∃ d, m c = .ok a d ∧ d.toMarking = t := by
  have heq := h c
  rw [hn] at heq
  cases hm : m c with
  | ok b d =>
    simp only [hm, forget, EStateM.Result.ok.injEq] at heq
    exact ⟨d, by rw [heq.1], heq.2⟩
  | error fault d => simp only [hm, forget, reduceCtorEq] at heq

theorem of_ok (h : Erases m n) {c d : Chronicle ω} {a : α} (hm : m c = .ok a d) :
    n c.toMarking = .ok a d.toMarking := by
  rw [← h c, hm]
  rfl

protected theorem pure (a : α) : Erases (pure a : ChronM ω α) (pure a) :=
  fun _ => rfl

protected theorem throw (fault : Fault) : Erases (throw fault : ChronM ω α) (throw fault) :=
  fun _ => rfl

theorem quietly (n : MarkM ω α) : Erases (quietly n) n := by
  intro c
  unfold ChronM.quietly
  cases n c.toMarking <;> rfl

protected theorem bind {f : α → ChronM ω β} {k : α → MarkM ω β} (hm : Erases m n)
    (hf : ∀ a, Erases (f a) (k a)) : Erases (m >>= f) (n >>= k) := by
  intro c
  have heq := hm c
  change forget (EStateM.bind m f c) = EStateM.bind n k c.toMarking
  unfold EStateM.bind
  rw [← heq]
  cases m c with
  | ok a d => exact hf a d
  | error fault d => rfl

/-- What is written down first makes no difference. -/
theorem told (event : Event) {f : Unit → ChronM ω α} (hf : Erases (f ()) n) :
    Erases (tell event >>= f) n :=
  fun c => hf { c with events := event :: c.events }

/-- So does a look at a thing. -/
theorem sighted (thing : Thing) {f : Unit → ChronM ω α} (hf : Erases (f ()) n) :
    Erases (sight thing >>= f) n :=
  fun c => hf { c with sighted := c.sighted && c.marks.isMarked thing }

protected theorem ite {c : Prop} [Decidable c] {m' : ChronM ω α} {n' : MarkM ω α}
    (hthen : Erases m n) (helse : Erases m' n') :
    Erases (if c then m else m') (if c then n else n') := by
  by_cases hc : c
  · simpa only [if_pos hc] using hthen
  · simpa only [if_neg hc] using helse

protected theorem need (found : Option α) : Erases (need found : ChronM ω α) (need found) := by
  cases found with
  | none => exact Erases.throw .outOfBounds
  | some a => exact Erases.pure a

/-- A move behind a check that may fail. -/
theorem check {c : Prop} [Decidable c] {fault : Fault} (hm : Erases m n) :
    Erases (if c then MonadExcept.throw fault >>= fun (_ : PUnit) => m else m)
      (if c then MonadExcept.throw fault >>= fun (_ : PUnit) => n else n) :=
  .ite (.bind (.throw _) fun _ => hm) hm

protected theorem forM {visit : β → ChronM ω PUnit} {visit' : β → MarkM ω PUnit} (xs : List β)
    (h : ∀ x, Erases (visit x) (visit' x)) : Erases (xs.forM visit) (xs.forM visit') := by
  induction xs with
  | nil => exact Erases.pure PUnit.unit
  | cons x xs ih => exact (h x).bind fun _ => ih

end Erases

section Erasures

variable (g : Graph) (parent : Option Thing)

theorem erases_attempt (thing : Thing) (color : Color) :
    Erases (attempt g parent thing color : ChronM ω Bool) (MarkM.claim g thing color) :=
  .told _ (.quietly _)

theorem erases_attemptString (id : StringId) :
    Erases (attemptString g parent id : ChronM ω Bool) (MarkM.claimString g id) :=
  erases_attempt g parent _ _

theorem erases_noteScan (thing : Thing) :
    Erases (noteScan thing : ChronM ω Unit) (MarkM.noteScan thing) :=
  .sighted thing (.told _ (.quietly _))

theorem erases_refuse (entry : StackEntry) :
    Erases (refuse entry : ChronM ω Unit) (MarkM.delay entry) :=
  .told _ (.quietly _)

theorem erases_pushEntry (entry : StackEntry) :
    Erases (pushEntry entry : ChronM ω Unit) (MarkM.pushEntry entry) := by
  refine .told _ (.bind (.quietly _) fun refused => .ite (erases_refuse entry) ?_)
  refine .bind (.quietly _) fun s => ?_
  cases s.stack.admits with
  | error fault => exact .throw fault
  | ok admitted =>
    cases admitted with
    | true => exact .quietly _
    | false => exact erases_refuse entry

theorem erases_popEntry : Erases (popEntry : ChronM ω (Option StackEntry)) MarkM.popEntry :=
  fun c => by
    unfold popEntry MarkM.popEntry
    rfl

theorem erases_pushRange (range : ValueRange) :
    Erases (pushRange range : ChronM ω Unit) (MarkM.pushRange range) :=
  .check (.ite (erases_pushEntry _) (.pure _))

theorem erases_claimed {thing : Thing} {next : ChronM ω Unit} {next' : MarkM ω Unit}
    (hnext : Erases next next') :
    Erases (do if ← attempt g parent thing (← quietly MarkM.color) then next)
      (do if ← MarkM.claim g thing (← MarkM.color) then next') :=
  .bind (.quietly _) fun _ => .bind (erases_attempt g parent _ _) fun _ =>
    .ite hnext (.pure _)

theorem erases_pushObject (id : ObjectId) :
    Erases (pushObject g parent id : ChronM ω Unit) (MarkM.pushObject g id) :=
  erases_claimed g parent (erases_pushEntry _)

theorem erases_pushTypeObject (id : TypeObjectId) :
    Erases (pushTypeObject g parent id : ChronM ω Unit) (MarkM.pushTypeObject g id) :=
  erases_claimed g parent (erases_pushEntry _)

theorem erases_pushXml (id : XmlId) :
    Erases (pushXml g parent id : ChronM ω Unit) (MarkM.pushXml g id) :=
  erases_claimed g parent (erases_pushEntry _)

theorem erases_scanLinear (steps : Nat) (id : StringId) :
    Erases (scanLinear g steps id : ChronM ω Unit) (MarkM.scanLinear g steps id) := by
  induction steps generalizing id with
  | zero => exact .throw .endless
  | succ steps ih =>
    refine .bind (erases_noteScan _) fun _ => .bind (.need _) fun string => ?_
    cases string.base? with
    | none => exact .pure _
    | some base =>
      exact .bind (.need _) fun _ => .check <|
        .bind (erases_attemptString g _ _) fun _ => .ite (ih _) (.pure _)

theorem erases_enterPart (part : StringId) :
    Erases (enterPart g parent part : ChronM ω (Option StringId)) (MarkM.enterPart g part) :=
  .bind (erases_attemptString g _ _) fun _ => .ite
    (.bind (.need _) fun _ => .ite (.pure _) (.bind (erases_scanLinear g _ _) fun _ => .pure _))
    (.pure _)

theorem erases_scanRope (depth steps : Nat) (id : StringId) :
    Erases (scanRope g depth steps id : ChronM ω Unit) (MarkM.scanRope g depth steps id) := by
  induction steps generalizing id with
  | zero => exact .throw .endless
  | succ steps ih =>
    refine .bind (erases_noteScan _) fun _ => .bind (.need _) fun string => ?_
    cases string.parts? with
    | none => exact .throw _
    | some parts =>
      refine .bind (erases_enterPart g _ _) fun last =>
        .bind (erases_enterPart g _ _) fun first => ?_
      cases first with
      | none =>
        cases last with
        | none =>
          refine .bind (.quietly _) fun s => .ite ?_ (.pure _)
          refine .bind erases_popEntry fun entry => ?_
          match entry with
          | some (.rope next) => exact ih next
          | none => exact .throw _
          | some (.object _) => exact .throw _
          | some (.typeObject _) => exact .throw _
          | some (.xml _) => exact .throw _
          | some (.values _) => exact .throw _
        | some next => exact ih next
      | some next =>
        cases last with
        | none => exact ih next
        | some waiting => exact .bind (erases_pushEntry _) fun _ => ih next

theorem erases_pushString (id : StringId) :
    Erases (pushString g parent id : ChronM ω Unit) (MarkM.pushString g id) :=
  .bind (erases_attemptString g _ _) fun _ => .ite
    (.bind (.need _) fun _ => .ite (.bind (.quietly _) fun _ => erases_scanRope g _ _ _)
      (erases_scanLinear g _ _))
    (.pure _)

theorem erases_shadeTwin (id : BaseShapeId) (base : BaseShapeCell) (twin : BaseShapeId) :
    Erases (shadeTwin g id base twin : ChronM ω Unit) (MarkM.shadeTwin g id base twin) :=
  .told _ (.quietly _)

theorem erases_pushOptional {kind : Kind} {push : Ref kind → ChronM ω Unit}
    {push' : Ref kind → MarkM ω Unit} (h : ∀ id, Erases (push id) (push' id))
    (ref : Option (Ref kind)) : Erases (pushOptional push ref) (MarkM.pushOptional push' ref) := by
  cases ref with
  | none => exact .pure _
  | some id => exact h id

theorem erases_scanBaseShape (id : BaseShapeId) :
    Erases (scanBaseShape g id : ChronM ω Unit) (MarkM.scanBaseShape g id) :=
  have hobject := erases_pushOptional (ω := ω) (erases_pushObject g (some id.thing))
  .bind (erases_noteScan _) fun _ => .bind (.need _) fun _ =>
    .bind (hobject _) fun _ => .bind (hobject _) fun _ => .bind (hobject _) fun _ =>
      erases_pushOptional (erases_shadeTwin g id _) _

theorem erases_pushBaseShape (id : BaseShapeId) :
    Erases (pushBaseShape g parent id : ChronM ω Unit) (MarkM.pushBaseShape g id) :=
  erases_claimed g parent (erases_scanBaseShape g id)

theorem erases_pushProperty (property : PropertyId) :
    Erases (pushProperty g parent property : ChronM ω Unit) (MarkM.pushProperty g property) := by
  cases property with
  | string id => exact erases_pushString g parent id
  | object id => exact erases_pushObject g parent id
  | _ => exact .pure _

theorem erases_scanShape (steps : Nat) (id : ShapeId) :
    Erases (scanShape g steps id : ChronM ω Unit) (MarkM.scanShape g steps id) := by
  induction steps generalizing id with
  | zero => exact .throw .endless
  | succ steps ih =>
    refine .bind (erases_noteScan _) fun _ => .bind (.need _) fun shape =>
      .bind (erases_pushBaseShape g _ _) fun _ => .bind (erases_pushProperty g _ _) fun _ => ?_
    cases shape.previous with
    | none => exact .pure _
    | some previous => exact erases_claimed g _ (ih previous)

theorem erases_pushShape (id : ShapeId) :
    Erases (pushShape g parent id : ChronM ω Unit) (MarkM.pushShape g id) :=
  erases_claimed g parent (erases_scanShape g _ id)

theorem erases_follow {push : Thing → ChronM ω Unit} {push' : Thing → MarkM ω Unit}
    (hpush : ∀ thing, Erases (push thing) (push' thing)) (visits : List Visit) :
    Erases (follow g push visits) (MarkM.follow g push' visits) := by
  refine .forM visits fun visit => ?_
  cases visit with
  | setLabel label => exact .quietly (MarkM.setLabel label)
  | keepFilename name =>
    exact .quietly (modify fun s => { s with filenames := s.filenames.mark name })
  | broken fault => exact .throw fault
  | report thing =>
    have hreport : Erases (do push thing; quietly (MarkM.setLabel .blank))
        (do push' thing; MarkM.setLabel .blank) := .bind (hpush thing) fun _ => .quietly _
    simp only [ChronM.visit, MarkM.visit]
    cases g.objection? thing with
    | some fault => exact .bind (.throw fault) fun _ => hreport
    | none => exact hreport

theorem erases_pushPlain (thing : Thing) :
    Erases (pushPlain g parent thing : ChronM ω Unit) (MarkM.pushPlain g thing) := by
  unfold pushPlain MarkM.pushPlain
  cases thing.kind with
  | object => exact erases_pushObject g parent _
  | string => exact erases_pushString g parent _
  | script => exact .pure _
  | shape => exact erases_pushShape g parent _
  | baseShape => exact erases_pushBaseShape g parent _
  | typeObject => exact erases_pushTypeObject g parent _
  | xml => exact erases_pushXml g parent _

theorem erases_pushScript (id : ScriptId) :
    Erases (pushScript g parent id : ChronM ω Unit) (MarkM.pushScript g id) :=
  erases_claimed g parent <|
    .bind (erases_noteScan _) fun _ => erases_follow g (erases_pushPlain g _) _

theorem erases_pushThing (thing : Thing) :
    Erases (pushThing g parent thing : ChronM ω Unit) (MarkM.pushThing g thing) := by
  unfold pushThing MarkM.pushThing
  cases thing.kind with
  | script => exact erases_pushScript g parent _
  | _ => exact erases_pushPlain g parent thing

theorem erases_make (call : MarkingCall) :
    Erases (make g call : ChronM ω Unit) (MarkM.make g call) :=
  .bind (.quietly _) fun _ => erases_follow g (erases_pushThing g none) _

theorem erases_scanTypeObject (id : TypeObjectId) :
    Erases (scanTypeObject g id : ChronM ω Unit) (MarkM.scanTypeObject g id) := by
  have hobject := erases_pushOptional (ω := ω) (erases_pushObject g (some id.thing))
  have hlast : ∀ type : TypeCell, Erases
      (do pushOptional (pushObject g (some id.thing)) type.function
          if !type.isLazy then
            pushOptional (pushObject g (some id.thing)) type.singleton : ChronM ω Unit)
      (do MarkM.pushOptional (MarkM.pushObject g) type.function
          if !type.isLazy then MarkM.pushOptional (MarkM.pushObject g) type.singleton) :=
    fun type => .bind (hobject _) fun _ => .ite (hobject _) (.pure _)
  refine .bind (erases_noteScan _) fun _ => .bind (.need _) fun type =>
    .bind (.forM _ (erases_pushProperty g _)) fun _ => .bind (hobject _) fun _ => ?_
  cases type.newScript with
  | none => exact hlast type
  | some newScript =>
    exact .bind (erases_pushObject g _ _) fun _ =>
      .bind (erases_pushShape g _ _) fun _ => hlast type

theorem erases_scanXml (id : XmlId) :
    Erases (scanXml g id : ChronM ω Unit) (MarkM.scanXml g id) :=
  .bind (erases_noteScan _) fun _ => erases_follow g (erases_pushThing g _) _

theorem erases_readValues (owner : ObjectId) (object : ObjectCell) (region : Region)
    (count index : Nat) :
    Erases (readValues g owner object region count index : ChronM ω (Option ObjectId))
      (MarkM.readValues g owner object region count index) := by
  induction count generalizing index with
  | zero => exact .pure _
  | succ count ih =>
    unfold readValues MarkM.readValues
    cases object.regionValue region index with
    | string id => exact .bind (erases_pushString g _ _) fun _ => ih _
    | object id =>
      exact .bind (.quietly _) fun _ => .bind (erases_attempt g _ _ _) fun _ =>
        .ite (.bind (erases_pushRange _) fun _ => .pure _) (ih _)
    | _ => exact ih _

theorem erases_scanRange (range : ValueRange) :
    Erases (scanRange g range : ChronM ω (Option ObjectId)) (MarkM.scanRange g range) :=
  .bind (.need _) fun _ => .check (erases_readValues g _ _ _ _ _)

theorem erases_openObject (id : ObjectId) :
    Erases (openObject g id : ChronM ω (Option ValueRange)) (MarkM.openObject g id) :=
  .bind (erases_noteScan _) fun _ => .bind (.need _) fun _ =>
    .bind (erases_pushTypeObject g _ _) fun _ => .bind (erases_pushShape g _ _) fun _ =>
      .bind (.need _) fun _ => .ite (.pure _) <|
        .bind (erases_follow g (erases_pushThing g _) _) fun _ => .ite (.pure _) <|
          .ite (.bind (erases_pushRange _) fun _ => .pure _) (.pure _)

theorem erases_scanObject (id : ObjectId) :
    Erases (scanObject g id : ChronM ω (Option ObjectId)) (MarkM.scanObject g id) := by
  refine .bind (erases_openObject g id) fun next => ?_
  cases next with
  | none => exact .pure _
  | some range => exact erases_scanRange g range

theorem erases_process (entry : StackEntry) :
    Erases (process g entry : ChronM ω (Option ObjectId)) (MarkM.process g entry) := by
  cases entry with
  | object id => exact erases_scanObject g id
  | values range => exact erases_scanRange g range
  | typeObject id => exact .bind (erases_scanTypeObject g id) fun _ => .pure _
  | xml id => exact .bind (erases_scanXml g id) fun _ => .pure _
  | rope id => exact .throw _

theorem erases_advance (found : Option ObjectId) :
    Erases (advance g found : ChronM ω (Option ObjectId)) (MarkM.advance g found) := by
  cases found with
  | some id => exact erases_scanObject g id
  | none =>
    refine .bind erases_popEntry fun entry => ?_
    cases entry with
    | none => exact .pure _
    | some entry => exact erases_process g entry

theorem erases_drainStack (units : Nat) (found : Option ObjectId) (budget : Budget) :
    Erases (drainStack g units found budget : ChronM ω (Bool × Budget))
      (MarkM.drainStack g units found budget) := by
  induction units generalizing found budget with
  | zero => exact .throw .endless
  | succ units ih =>
    have hcut : ∀ depth : Nat → Record, Erases
        (do quietly (do MarkM.record (depth (← get).stack.size))
            return (false, budget.step 1) : ChronM ω (Bool × Budget))
        (do MarkM.record (depth (← get).stack.size)
            return (false, budget.step 1)) := fun depth => by
      intro c
      rfl
    refine .bind (.quietly _) fun s => .ite (.pure _) ?_
    refine .bind (erases_advance g found) fun next => .ite ?_ (ih next _)
    cases next with
    | none => exact hcut _
    | some id => exact .told _ (.bind (erases_pushEntry _) fun _ => hcut _)

theorem erases_drainDelayed (units : Nat) (budget : Budget) :
    Erases (drainDelayed g units budget : ChronM ω (Bool × Budget))
      (MarkM.drainDelayed g units budget) := by
  induction units generalizing budget with
  | zero => exact .throw .endless
  | succ units ih =>
    refine .bind (.quietly _) fun next => ?_
    cases next with
    | none => exact .pure _
    | some thing =>
      exact .bind (.quietly _) fun _ => .bind (erases_noteScan thing) fun _ =>
        .bind (erases_follow g (erases_pushThing g _) _) fun _ => .ite (.pure _) (ih _)

theorem erases_drainRounds (units rounds : Nat) (budget : Budget) :
    Erases (drainRounds g units rounds budget : ChronM ω Bool)
      (MarkM.drainRounds g units rounds budget) := by
  induction rounds generalizing budget with
  | zero => exact .throw .endless
  | succ rounds ih =>
    refine .bind (erases_drainStack g units none budget) fun answer => .ite (.pure _) ?_
    refine .bind (.quietly _) fun s => .ite (.bind (.quietly _) fun _ => .pure _) ?_
    refine .bind (.quietly _) fun _ => ?_
    exact .bind (erases_drainDelayed g units _) fun rest => .ite (.pure _) (ih _)

theorem erases_drain (budget : Budget) :
    Erases (drain g budget : ChronM ω Bool) (MarkM.drain g budget) :=
  .bind (.quietly _) fun _ => .bind (.quietly _) fun units =>
    erases_drainRounds g units units budget

theorem erases_traceDelayed (budget : Budget) :
    Erases (traceDelayed g budget : ChronM ω (Bool × Budget)) (MarkM.traceDelayed g budget) :=
  .bind (.quietly _) fun units => erases_drainDelayed g units budget

theorem erases_makeStep (step : Step) :
    Erases (makeStep g step : ChronM ω Unit) (step.make g) := by
  cases step with
  | call request => exact erases_make g request
  | slice budget => exact .bind (erases_drain g budget) fun _ => .pure _
  | delayedSlice budget => exact .bind (erases_traceDelayed g budget) fun _ => .pure _

/-- A session with a chronicle is the session without one. -/
theorem erases_steps (steps : List Step) :
    Erases (steps.forM (makeStep g) : ChronM ω Unit) (steps.forM (Step.make g)) :=
  .forM steps (erases_makeStep g)

end Erasures

end ChronM

end MarkPhase
