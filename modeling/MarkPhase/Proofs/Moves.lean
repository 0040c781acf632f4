import MarkPhase.Draining
import MarkPhase.Proofs.Enumerations

/-!
What all moves of a marker have in common. A property that the elementary moves have, and
that is kept where moves are put together, is a property of every move that a marker makes
between two units of work. This goes along the definitions, and the walks are taken by
induction on their steps.
-/

namespace MarkPhase

variable {ω : Type}

/-- The visits do not depend on the label that is set. -/
theorem MarkingCall.visits_eq (g : Graph) (isMarker : Bool) (context : Context)
    (call : MarkingCall) : call.visits g isMarker context =
      call.visits g isMarker { compartment := context.compartment } := by
  cases call <;> rfl

open MarkM

/-- The property passes from the elementary moves over `g` to those put together from them.
A string is claimed in its own way, and everything else in the colour of the marker. The claim
of a script is taken together with the scan that follows it, and apart from this scan only
filenames in `names` are kept. -/
structure Inherited (g : Graph) (names : String → Prop) (good : ∀ {α : Type}, MarkM ω α → Prop) :
    Prop where
  pure : ∀ {α : Type} (a : α), good (pure a)
  throw : ∀ {α : Type} (fault : Fault), good (throw fault : MarkM ω α)
  bind : ∀ {α β : Type} {m : MarkM ω α} {f : α → MarkM ω β}, good m → (∀ a, good (f a)) →
    good (m >>= f)
  claim : ∀ {kind : Kind} (id : Ref kind), kind ≠ .string ∧ kind ≠ .script →
    good (do claim g id.thing (← color))
  claimString : ∀ id : StringId, good (claimString g id)
  script : ∀ id : ScriptId,
    (∀ visits, KeepsOnly names visits → good (follow g (pushPlain g) visits)) →
    good (pushScript g id)
  shade : ∀ id : BaseShapeId, good do
    let color ← color
    modify fun s =>
      if s.marks.isMarked id.thing then s
      else { s with marks := s.marks.set id.thing (.marked color) }
  noteScan : ∀ thing, good (noteScan thing)
  setLabel : ∀ label, good (setLabel label)
  keepFilename : ∀ name, names name →
    good (modify fun s => { s with filenames := s.filenames.mark name })
  pushEntry : ∀ entry, good (pushEntry entry)
  popEntry : good popEntry
  depth : good (do return (← get).stack.size)
  filter : good (do return (← get).context.compartment)

namespace Inherited

variable {g : Graph} {names : String → Prop} {good : ∀ {α : Type}, MarkM ω α → Prop}

theorem ite (_ : Inherited g names good) {α : Type} {c : Prop} [Decidable c] {m n : MarkM ω α}
    (hthen : good m) (helse : good n) : good (if c then m else n) := by
  by_cases hc : c
  · rwa [if_pos hc]
  · rwa [if_neg hc]

variable (h : Inherited g names good)

include h

theorem need {α : Type} (found : Option α) : good (need found) := by
  cases found with
  | none => exact h.throw .outOfBounds
  | some a => exact h.pure a

/-- A move behind a check that may fail. -/
theorem check {α : Type} {c : Prop} [Decidable c] {fault : Fault} {m : MarkM ω α} (hm : good m) :
    good (if c then MonadExcept.throw fault >>= fun (_ : PUnit) => m else m) :=
  h.ite (h.bind (h.throw _) fun _ => hm) hm

theorem forM {α : Type} {visit : α → MarkM ω PUnit} {xs : List α}
    (hvisit : ∀ x ∈ xs, good (visit x)) : good (xs.forM visit) := by
  induction xs with
  | nil => exact h.pure PUnit.unit
  | cons x xs ih =>
    exact h.bind (hvisit x (List.mem_cons_self ..)) fun _ =>
      ih fun y hy => hvisit y (List.mem_cons_of_mem _ hy)

/-- What follows depends on the depth of the stack only. -/
theorem bind_depth {α : Type} {f : Nat → MarkM ω α} (hf : ∀ depth, good (f depth)) :
    good (do f (← get).stack.size) := by
  have hread : (do f (← get).stack.size) =
      (do return (← get).stack.size : MarkM ω Nat) >>= f := by
    simp only [bind_assoc, pure_bind]
  rw [hread]
  exact h.bind h.depth hf

theorem bind_claim {α : Type} {kind : Kind} {id : Ref kind}
    (hkind : kind ≠ .string ∧ kind ≠ .script) {f : Bool → MarkM ω α}
    (hf : ∀ claimed, good (f claimed)) :
    good (color >>= fun color => MarkM.claim g id.thing color >>= f) := by
  rw [← bind_assoc]
  exact h.bind (h.claim id hkind) hf

/-! Things that wait. -/

theorem claimed {kind : Kind} {id : Ref kind} (hkind : kind ≠ .string ∧ kind ≠ .script)
    {next : MarkM ω Unit} (hnext : good next) :
    good (do if ← MarkM.claim g id.thing (← color) then next) :=
  h.bind_claim hkind fun _ => h.ite hnext (h.pure _)

theorem pushObject (id : ObjectId) : good (pushObject g id) :=
  h.claimed (by decide) (h.pushEntry _)

theorem pushTypeObject (id : TypeObjectId) : good (pushTypeObject g id) :=
  h.claimed (by decide) (h.pushEntry _)

theorem pushXml (id : XmlId) : good (pushXml g id) :=
  h.claimed (by decide) (h.pushEntry _)

theorem pushRange (range : ValueRange) : good (pushRange range) :=
  h.check (h.ite (h.pushEntry _) (h.pure _))

/-! Strings. -/

theorem scanLinear (steps : Nat) (id : StringId) : good (scanLinear g steps id) := by
  induction steps generalizing id with
  | zero => exact h.throw .endless
  | succ steps ih =>
    refine h.bind (h.noteScan _) fun _ => h.bind (h.need _) fun string => ?_
    split
    · exact h.bind (h.need _) fun below =>
        h.check (h.bind (h.claimString _) fun _ => h.ite (ih _) (h.pure _))
    · exact h.pure _

theorem enterPart (part : StringId) : good (enterPart g part) :=
  h.bind (h.claimString _) fun _ => h.ite (h.bind (h.need _) fun _ => h.ite (h.pure _)
    (h.bind (h.scanLinear _ _) fun _ => h.pure _)) (h.pure _)

theorem scanRope (depth steps : Nat) (id : StringId) : good (scanRope g depth steps id) := by
  induction steps generalizing id with
  | zero => exact h.throw .endless
  | succ steps ih =>
    refine h.bind (h.noteScan _) fun _ => h.bind (h.need _) fun string => ?_
    split
    · exact h.throw _
    · refine h.bind (h.enterPart _) fun last => h.bind (h.enterPart _) fun first => ?_
      cases first with
      | none =>
        cases last with
        | none =>
          refine h.bind_depth (f := fun size => if size ≠ depth then _ else _) fun size => ?_
          refine h.ite (h.bind h.popEntry fun entry => ?_) (h.pure _)
          split
          · exact ih _
          · exact h.throw _
        | some next => exact ih next
      | some next =>
        cases last with
        | none => exact ih next
        | some waiting => exact h.bind (h.pushEntry _) fun _ => ih next

theorem pushString (id : StringId) : good (pushString g id) := by
  refine h.bind (h.claimString _) fun _ => h.ite (h.bind (h.need _) fun _ => h.ite ?_ ?_) (h.pure _)
  · exact h.bind_depth fun depth => h.scanRope depth _ _
  · exact h.scanLinear _ _

/-! Shapes. -/

theorem shadeTwin (id : BaseShapeId) (base : BaseShapeCell) (twin : BaseShapeId) :
    good (shadeTwin g id base twin) :=
  h.bind (h.need _) fun _ => h.ite (h.shade twin) (h.throw _)

theorem pushOptional {kind : Kind} {push : Ref kind → MarkM ω Unit}
    (hpush : ∀ id, good (push id)) (ref : Option (Ref kind)) : good (pushOptional push ref) := by
  cases ref with
  | none => exact h.pure _
  | some id => exact hpush id

theorem scanBaseShape (id : BaseShapeId) : good (scanBaseShape g id) :=
  h.bind (h.noteScan _) fun _ => h.bind (h.need _) fun _ =>
    h.bind (h.pushOptional h.pushObject _) fun _ =>
      h.bind (h.pushOptional h.pushObject _) fun _ =>
        h.bind (h.pushOptional h.pushObject _) fun _ =>
          h.pushOptional (h.shadeTwin id _) _

theorem pushBaseShape (id : BaseShapeId) : good (pushBaseShape g id) :=
  h.claimed (by decide) (h.scanBaseShape id)

theorem pushProperty (property : PropertyId) : good (pushProperty g property) := by
  cases property with
  | string id => exact h.pushString id
  | object id => exact h.pushObject id
  | _ => exact h.pure _

theorem scanShape (steps : Nat) (id : ShapeId) : good (scanShape g steps id) := by
  induction steps generalizing id with
  | zero => exact h.throw .endless
  | succ steps ih =>
    refine h.bind (h.noteScan _) fun _ => h.bind (h.need _) fun shape =>
      h.bind (h.pushBaseShape _) fun _ => h.bind (h.pushProperty _) fun _ => ?_
    split
    · exact h.claimed (by decide) (ih _)
    · exact h.pure _

theorem pushShape (id : ShapeId) : good (pushShape g id) :=
  h.claimed (by decide) (h.scanShape _ id)

/-! Visits. -/

theorem follow {push : Thing → MarkM ω Unit} (hpush : ∀ thing, good (push thing))
    {visits : List Visit} (hnames : KeepsOnly names visits) : good (follow g push visits) := by
  refine h.forM fun visit hvisit => ?_
  cases visit with
  | setLabel label => exact h.setLabel label
  | keepFilename name => exact h.keepFilename name (hnames name hvisit)
  | broken fault => exact h.throw fault
  | report thing =>
    have hreport : good (do push thing; MarkM.setLabel .blank) :=
      h.bind (hpush thing) fun _ => h.setLabel .blank
    simp only [visit]
    cases g.objection? thing with
    | some fault => exact h.bind (h.throw fault) fun _ => hreport
    | none => exact hreport

theorem pushPlain (thing : Thing) : good (pushPlain g thing) := by
  unfold MarkM.pushPlain
  cases thing.kind with
  | object => exact h.pushObject _
  | string => exact h.pushString _
  | script => exact h.pure _
  | shape => exact h.pushShape _
  | baseShape => exact h.pushBaseShape _
  | typeObject => exact h.pushTypeObject _
  | xml => exact h.pushXml _

theorem pushScript (id : ScriptId) : good (pushScript g id) :=
  h.script id fun _ => h.follow h.pushPlain

theorem pushThing (thing : Thing) : good (pushThing g thing) := by
  unfold MarkM.pushThing
  split
  · exact h.pushScript _
  · exact h.pushPlain thing

/-- A marking call is put together from elementary moves. -/
theorem make {call : MarkingCall}
    (hnames : ∀ filter, KeepsOnly names (call.visits g true { compartment := filter })) :
    good (make g call) := by
  have hread : (MarkM.make g call : MarkM ω Unit) =
      (do return (← get).context.compartment) >>= fun filter =>
        MarkM.follow g (MarkM.pushThing g) (call.visits g true { compartment := filter }) := by
    simp only [bind_assoc, pure_bind, MarkM.make]
    exact bind_congr fun s => by rw [MarkingCall.visits_eq]
  rw [hread]
  exact h.bind h.filter fun filter => h.follow h.pushThing (hnames filter)

theorem scanXml (id : XmlId) : good (scanXml g id) :=
  h.bind (h.noteScan _) fun _ => h.follow h.pushThing ((Enumeration.xmlVisits id).keepsOnly)

theorem scanTypeObject (id : TypeObjectId) : good (scanTypeObject g id) := by
  have hobject : ∀ ref, good (MarkM.pushOptional (MarkM.pushObject g) ref) :=
    h.pushOptional h.pushObject
  have hlast : ∀ type : TypeCell, good (do
      MarkM.pushOptional (MarkM.pushObject g) type.function
      if !type.isLazy then
        MarkM.pushOptional (MarkM.pushObject g) type.singleton) :=
    fun type => h.bind (hobject _) fun _ => h.ite (hobject _) (h.pure _)
  refine h.bind (h.noteScan _) fun _ => h.bind (h.need _) fun type =>
    h.bind (h.forM fun _ _ => h.pushProperty _) fun _ => h.bind (hobject _) fun _ => ?_
  cases type.newScript with
  | none => exact hlast type
  | some newScript =>
    exact h.bind (h.pushObject _) fun _ => h.bind (h.pushShape _) fun _ => hlast type

/-! Objects. -/

theorem readValues (owner : ObjectId) (object : ObjectCell) (region : Region)
    (count index : Nat) : good (readValues g owner object region count index) := by
  induction count generalizing index with
  | zero => exact h.pure _
  | succ count ih =>
    unfold MarkM.readValues
    split
    · exact h.bind (h.pushString _) fun _ => ih _
    · exact h.bind_claim (by decide) fun _ =>
        h.ite (h.bind (h.pushRange _) fun _ => h.pure _) (ih _)
    · exact ih _

theorem scanRange (range : ValueRange) : good (scanRange g range) :=
  h.bind (h.need _) fun _ => h.check (h.readValues _ _ _ _ _)

theorem openObject (id : ObjectId) : good (openObject g id) :=
  h.bind (h.noteScan _) fun _ => h.bind (h.need _) fun _ =>
    h.bind (h.pushTypeObject _) fun _ => h.bind (h.pushShape _) fun _ =>
      h.bind (h.need _) fun _ => h.ite (h.pure _) <|
        h.bind (h.follow h.pushThing ((Enumeration.hookVisits _ _).keepsOnly)) fun _ =>
          h.ite (h.pure _) <|
          h.ite (h.bind (h.pushRange _) fun _ => h.pure _) (h.pure _)

theorem scanObject (id : ObjectId) : good (scanObject g id) := by
  refine h.bind (h.openObject id) fun next => ?_
  cases next with
  | none => exact h.pure _
  | some range => exact h.scanRange range

/-! Units of work. -/

theorem process (entry : StackEntry) : good (process g entry) := by
  cases entry with
  | object id => exact h.scanObject id
  | values range => exact h.scanRange range
  | typeObject id => exact h.bind (h.scanTypeObject id) fun _ => h.pure _
  | xml id => exact h.bind (h.scanXml id) fun _ => h.pure _
  | rope id => exact h.throw _

theorem advance (found : Option ObjectId) : good (advance g found) := by
  cases found with
  | some id => exact h.scanObject id
  | none =>
    refine h.bind h.popEntry fun entry => ?_
    cases entry with
    | none => exact h.pure _
    | some entry => exact h.process entry

end Inherited

end MarkPhase
