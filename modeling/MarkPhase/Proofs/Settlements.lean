import MarkPhase.Proofs.Dues
import MarkPhase.Proofs.Units

/-!
Every scan tries the children of the thing that it is about. The dues of a scan are settled
on the spot, or they pass to the stack. This is shown for one kind of thing after the
other; of an object it says that its regions, cut into ranges, are read to the end.
-/

namespace MarkPhase

/-! The things in lists of visits. -/

section Things

@[simp]
theorem things_fieldVisits {kind : Kind} (name : String) (ref : Option (Ref kind)) :
    (fieldVisits name ref).filterMap Visit.thing? = refThings ref := by
  cases ref <;> rfl

theorem things_valueTableVisits (name : String) (values : List Value) :
    (valueTableVisits name values).filterMap Visit.thing? = values.filterMap Value.thing? := by
  unfold valueTableVisits fullTableVisits
  rw [things_flatMap _ (fun entry => .indexed name entry.2) Prod.fst]
  calc (values.map Value.thing?).zipIdx.filterMap Prod.fst
      = ((values.map Value.thing?).zipIdx.map Prod.fst).filterMap id := by
        rw [List.filterMap_map]
        rfl
    _ = values.filterMap Value.thing? := by rw [List.zipIdx_map_fst, List.filterMap_map]; rfl

end Things

namespace Graph

variable {g : Graph}

theorem children_string {id : StringId} {string : StringCell} (hid : g.string? id = some string) :
    g.children id.thing = string.references := by
  change (stringVisits g id).filterMap Visit.thing? = _
  simp only [stringVisits, hid, StringCell.references]
  cases string.layout <;> simp

theorem children_shape {id : ShapeId} {shape : ShapeCell} (hid : g.shape? id = some shape) :
    g.children id.thing = shape.references := by
  change (shapeVisits g id).filterMap Visit.thing? = _
  simp [shapeVisits, hid, ShapeCell.references]

theorem children_baseShape {id : BaseShapeId} {base : BaseShapeCell}
    (hid : g.baseShape? id = some base) : g.children id.thing =
      refThings base.getter ++ refThings base.setter ++ refThings base.twin ++
        refThings base.parent := by
  change (baseShapeVisits g id).filterMap Visit.thing? = _
  simp [baseShapeVisits, accessorVisits, hid]

/-- The fields of a type object besides its properties, in the order in which they are shown. -/
theorem children_typeObject {id : TypeObjectId} {type : TypeCell}
    (hid : g.typeObject? id = some type) : g.children id.thing =
      (shownProperties true type).filterMap PropertyId.thing? ++
        (refThings type.proto ++ ((if type.isLazy then [] else refThings type.singleton) ++
          ((type.newScript.toList.flatMap fun newScript =>
            [newScript.function.thing, newScript.shape.thing]) ++ refThings type.function))) := by
  change (typeObjectVisits g true id).filterMap Visit.thing? = _
  rw [typeObjectVisits_eq hid, List.filterMap_append]
  congr 1
  · exact things_flatMap _ (fun _ => .named "type_prop") PropertyId.thing?
  · unfold typeFieldVisits
    rw [List.filterMap_append, List.filterMap_append, List.filterMap_append, things_fieldVisits,
      things_fieldVisits]
    congr 2
    · cases type.isLazy with
      | true => rfl
      | false => exact things_fieldVisits _ _
    · cases type.newScript <;> rfl

theorem held_whole {id : ObjectId} {object : ObjectCell} (hid : g.object? id = some object)
    (region : Region) : g.held (object.whole id region) =
      (object.region region).filterMap Value.thing? := by
  rw [held, ObjectCell.whole, hid]
  simp only [ObjectCell.held, ObjectCell.region, Nat.sub_zero, List.range_eq_range']

theorem things_elements {id : ObjectId} {object : ObjectCell}
    (hid : g.object? id = some object) :
    (hookVisits object (some .elements)).filterMap Visit.thing? =
      g.held (object.whole id .elements) := by
  rw [held_whole hid]
  exact things_valueTableVisits _ _

/-- The values of a native object are those of two ranges. -/
theorem children_object (h : g.Sound) {id : ObjectId} {object : ObjectCell}
    (hid : g.object? id = some object) {objectClass : Class}
    (hclass : g.classOf? object = some objectClass) : g.children id.thing =
      object.type.thing :: object.shape.thing ::
        ((hookVisits object objectClass.hook).filterMap Visit.thing? ++
          if objectClass.native then
            g.held (object.whole id .fixed) ++ g.held (object.whole id .dynamic)
          else []) := by
  have hslots : (slotVisits id object).filterMap Visit.thing? =
      g.held (object.whole id .fixed) ++ g.held (object.whole id .dynamic) := by
    unfold slotVisits
    rw [things_flatMap _ (Label.slot id) fun index => (object.slot index).thing?,
      held_whole hid, held_whole hid, ← List.filterMap_append, ← (h.object hid).2.map_slot,
      List.filterMap_map]
    rfl
  change (objectVisits g id).filterMap Visit.thing? = _
  simp only [objectVisits, hid, hclass, List.filterMap_append, things_edgeVisits]
  cases objectClass.native with
  | true =>
    rw [if_pos rfl, if_pos rfl, hslots]
    rfl
  | false => rfl

end Graph

variable {ω : Type}

/-! Work that is put aside. -/

private def Marking.SameMarks (s t : Marking ω) : Prop :=
  t.marks = s.marks

private instance : IsPreorder (Marking ω) Marking.SameMarks where
  refl _ := rfl
  trans _ _ _ h h' := Eq.trans h' h

private theorem Marking.admits_sameMarks : Marking.Admits (Marking.SameMarks (ω := ω)) :=
  .of_eq fun hmarks _ _ => hmarks

namespace Chronicle

variable {c d : Chronicle ω}

/-- From one to the other nothing has been marked or scanned, and nothing put off. -/
structure Spares (c d : Chronicle ω) : Prop where
  marks : d.marks = c.marks
  scanned : ∀ thing, .scanned thing ∈ d.events → .scanned thing ∈ c.events
  postponed : ∀ id, .postponed id ∈ d.events → .postponed id ∈ c.events

instance : IsPreorder (Chronicle ω) Spares where
  refl _ := ⟨rfl, fun _ => id, fun _ => id⟩
  trans _ _ _ h h' := ⟨h'.marks.trans h.marks,
    fun thing hmem => h.scanned thing (h'.scanned thing hmem),
    fun id hmem => h.postponed id (h'.postponed id hmem)⟩

theorem Spares.newly {B : Basis} {thing : Thing} (h : c.Spares d) (hnewly : B.Newly thing c) :
    B.Newly thing d :=
  ⟨hnewly.old, h.marks ▸ hnewly.marked, fun hmem => hnewly.notScanned (h.scanned thing hmem)⟩

end Chronicle

namespace ChronM

open Marking Chronicle

/-! A relation between chronicles that agrees with a relation between markings, for what is
done quietly. -/

section Respects

variable {R : Chronicle ω → Chronicle ω → Prop} {S : Marking ω → Marking ω → Prop}
variable (hquiet : ∀ (c : Chronicle ω) (t : Marking ω), S c.toMarking t →
  R c { c with toMarking := t })

include hquiet

theorem respects_quietly {α : Type} {m : MarkM ω α} (hm : Respects S m) :
    Respects R (quietly m) := by
  intro c
  rw [yields_quietly]
  exact (hm c.toMarking).mono (fun _ t => hquiet c t) fun _ t => hquiet c t

variable [IsPreorder (Chronicle ω) R] (hdelay : ∀ entry, Respects S (MarkM.delay entry))
variable (hrefused : ∀ entry, Respects R (tell (.refused entry) : ChronM ω Unit))

include hdelay hrefused

theorem respects_refuse (entry : StackEntry) : Respects R (refuse entry : ChronM ω Unit) :=
  .bind (hrefused entry) fun _ => respects_quietly hquiet (hdelay entry)

/-- An entry is written down as it is offered, and as it is refused. -/
theorem respects_pushEntry (hasked : ∀ entry, Respects S (MarkM.isRefused entry))
    (hextend : ∀ (s : Marking ω) (entry : StackEntry), s.stack.admits = .ok true →
      S s { s with stack := (s.stack.extend entry).notePeak })
    (hoffered : ∀ entry, Respects R (tell (.offered entry) : ChronM ω Unit)) (entry : StackEntry) :
    Respects R (pushEntry entry : ChronM ω Unit) := by
  have hrefuse := respects_refuse hquiet hdelay hrefused entry
  refine .bind (hoffered entry) fun _ =>
    .bind (respects_quietly hquiet (hasked entry)) fun _ => .ite hrefuse fun c => ?_
  rw [yields_bind, yields_quietly, yields_get]
  cases hstack : c.stack.admits with
  | error fault => exact refl_of R c
  | ok admitted =>
    cases admitted with
    | true => exact hquiet c _ (hextend c.toMarking entry hstack)
    | false => exact hrefuse c

end Respects

private theorem spares_tell {event : Event} (hscanned : ∀ thing, .scanned thing ≠ event)
    (hpostponed : ∀ id, .postponed id ≠ event) : Respects Spares (tell event : ChronM ω Unit) :=
  fun _ => ⟨rfl, fun thing hmem => (List.mem_cons.mp hmem).resolve_left (hscanned thing),
    fun id hmem => (List.mem_cons.mp hmem).resolve_left (hpostponed id)⟩

theorem spares_pushEntry (entry : StackEntry) :
    Respects Spares (pushEntry entry : ChronM ω Unit) :=
  respects_pushEntry (fun _ _ hmarks => ⟨hmarks, fun _ => id, fun _ => id⟩)
    admits_sameMarks.delay (fun _ => spares_tell nofun nofun) admits_sameMarks.isRefused
    admits_sameMarks.extend (fun _ => spares_tell nofun nofun) entry

theorem spares_pushRange (range : ValueRange) : Respects Spares (pushRange range : ChronM ω Unit) :=
  .check (.ite (spares_pushEntry _) (.pure _))

end ChronM

variable {B : Basis} {parent : Option Thing}

namespace Basis

open ChronM

/-- A thing that is scanned once it is shaded. -/
theorem settles_claimed {thing : Thing} {next : ChronM ω Unit}
    (hnext : B.Settles next {.scan thing} B.Clear) :
    B.Settles (do if ← attempt B.graph parent thing (← quietly MarkM.color) then next)
      (Due.attempts parent [thing]) B.Clear := by
  refine (settles_color _).bind fun color => (settles_attempt parent thing color).bind ?_
  intro claimed
  cases claimed with
  | false => exact .pure rfl
  | true => exact hnext

/-- Where things are not calm, nobody counts attempts. -/
theorem Balanced.reattempt {other : Option Thing} {children others : List Thing}
    {hand : Multiset Due} {c : Chronicle ω}
    (h : B.Balanced (Due.attempts parent children + hand) c) (hcalm : ¬ B.calm) :
    B.Balanced (Due.attempts other others + hand) c where
  stack := h.stack
  delayed := h.delayed
  grows := h.grows
  fresh thing hnew := by simpa using h.fresh thing hnew
  scans thing hnew := by simpa using h.scans thing hnew
  kept id hnew hmarked := by simpa using h.kept id hnew hmarked
  attempts := fun h => absurd h hcalm
  within := h.within
  sighted := h.sighted

/-- A range that lies within its region. -/
theorem settles_pushRange {range : ValueRange} {object : ObjectCell}
    (howner : B.graph.object? range.owner = some object)
    (hstop : range.stop ≤ object.regionSize range.region) :
    B.Settles (pushRange range : ChronM ω Unit)
      (Due.attempts (some range.owner.thing) (B.graph.held range)) B.Clear := by
  refine .check fun hle => .ite (fun _ hand c h => ?_) fun hlt => .pure ?_
  · refine settles_pushEntry (.values range.inWords) hand c ?_
    by_cases hcalm : B.calm
    · rw [B.sound.inWords_eq (B.words hcalm) howner hstop (Nat.le_of_not_lt hle)]
      exact h
    · rw [StackEntry.dues]
      exact h.reattempt hcalm
  have hnothing : B.graph.held range = [] := by
    unfold Graph.held
    cases B.graph.object? range.owner with
    | none => rfl
    | some object => simp [ObjectCell.held, Nat.sub_eq_zero_of_le (Nat.le_of_not_lt hlt)]
  rw [hnothing, Due.attempts_nil]

/-! Things that wait. -/

theorem settles_pushObject (id : ObjectId) :
    B.Settles (pushObject B.graph parent id : ChronM ω Unit)
      (Due.attempts parent [id.thing]) B.Clear :=
  settles_claimed (settles_pushEntry (.object id))

theorem settles_pushTypeObject (id : TypeObjectId) :
    B.Settles (pushTypeObject B.graph parent id : ChronM ω Unit)
      (Due.attempts parent [id.thing]) B.Clear :=
  settles_claimed (settles_pushEntry (.typeObject id))

theorem settles_pushXml (id : XmlId) : B.Settles (pushXml B.graph parent id : ChronM ω Unit)
    (Due.attempts parent [id.thing]) B.Clear :=
  settles_claimed (settles_pushEntry (.xml id))

/-! Strings. -/

theorem settles_scanLinear (steps : Nat) {id : StringId}
    (hlinear : ∀ string, B.graph.string? id = some string → string.isRope = false) :
    B.Settles (scanLinear B.graph steps id : ChronM ω Unit) {.scan id.thing} B.Clear := by
  induction steps generalizing id with
  | zero => exact .throw _
  | succ steps ih =>
    refine (settles_noteScan id.thing).bind fun _ => .need fun string hid => ?_
    rw [Graph.children_string hid, StringCell.references_of_linear (hlinear string hid)]
    cases string.base? with
    | none => exact .pure Due.attempts_nil.symm
    | some base =>
      refine .need fun below hbelow => .check fun hrope => ?_
      refine (settles_attempt (some id.thing) base.thing .black).bind fun claimed => ?_
      cases claimed with
      | false => exact .pure rfl
      | true =>
        refine ih fun other hother => ?_
        obtain rfl := Option.some.inj (hbelow.symm.trans hother)
        exact Bool.eq_false_of_not_eq_true hrope

/-- A part of a rope that is a rope itself is left. -/
theorem settles_enterPart (part : StringId) :
    B.Settles (enterPart B.graph parent part : ChronM ω (Option StringId))
      (Due.attempts parent [part.thing]) (B.Left Due.scanOf) := by
  refine (settles_attempt parent part.thing .black).bind fun claimed => ?_
  cases claimed with
  | false => exact .pure rfl
  | true =>
    refine .need fun string hid => .ite (fun _ => .pure rfl) fun hrope => ?_
    refine (settles_scanLinear _ fun other hother => ?_).bind fun _ => .pure rfl
    obtain rfl := Option.some.inj (hid.symm.trans hother)
    exact Bool.eq_false_of_not_eq_true hrope

theorem settles_scanRope (depth steps : Nat) (id : StringId) :
    B.Settles (scanRope B.graph depth steps id : ChronM ω Unit) {.scan id.thing} B.Clear := by
  induction steps generalizing id with
  | zero => exact .throw _
  | succ steps ih =>
    refine (settles_noteScan id.thing).bind fun _ => .need fun string hid => ?_
    rw [Graph.children_string hid]
    cases hparts : string.parts? with
    | none => exact .throw _
    | some parts =>
      obtain ⟨left, right⟩ := parts
      have hreferences : string.references = [left.thing, right.thing] := by
        unfold StringCell.parts? StringCell.references at *
        cases hlayout : string.layout <;> simp_all
      rw [hreferences, Due.attempts_cons, add_comm]
      refine (settles_enterPart right).andThen fun last => ?_
      rw [add_comm]
      refine (settles_enterPart left).andThen fun first => ?_
      cases first with
      | some next =>
        cases last with
        | none => exact ih next
        | some waiting =>
          rw [add_comm]
          exact (settles_pushEntry (.rope waiting)).seq fun _ => ih next
      | none =>
        cases last with
        | some next => exact (zero_add ({.scan next.thing} : Multiset Due)).symm ▸ ih next
        | none =>
          refine (settles_look 0).bind fun s => .ite (fun _ => ?_) fun _ => .pure rfl
          refine settles_popEntry.bind fun entry => ?_
          cases entry with
          | none => exact .throw _
          | some entry =>
            cases entry with
            | rope next => exact ih next
            | _ => exact .throw _

theorem settles_pushString (id : StringId) :
    B.Settles (pushString B.graph parent id : ChronM ω Unit)
      (Due.attempts parent [id.thing]) B.Clear := by
  refine (settles_attempt parent id.thing .black).bind fun claimed => ?_
  cases claimed with
  | false => exact .pure rfl
  | true =>
    refine .need fun string hid => .ite (fun _ => ?_) fun hrope => ?_
    · exact (settles_look _).bind fun s => settles_scanRope s.stack.size _ id
    · refine settles_scanLinear _ fun other hother => ?_
      obtain rfl := Option.some.inj (hid.symm.trans hother)
      exact Bool.eq_false_of_not_eq_true hrope

/-! Base shapes and shapes. -/

theorem settles_pushOptional {kind : Kind} {push : Ref kind → ChronM ω Unit}
    (hpush : ∀ id : Ref kind, B.Settles (push id) (Due.attempts parent [id.thing]) B.Clear)
    (ref : Option (Ref kind)) :
    B.Settles (pushOptional push ref) (Due.attempts parent (refThings ref)) B.Clear := by
  cases ref with
  | none => exact .pure Due.attempts_nil.symm
  | some id => exact hpush id

theorem settles_scanBaseShape (id : BaseShapeId) :
    B.Settles (scanBaseShape B.graph id : ChronM ω Unit) {.scan id.thing} B.Clear := by
  refine (settles_noteScan id.thing).bind fun _ => .need fun base hid => ?_
  have htotal : Due.attempts (some id.thing) (B.graph.children id.thing) =
      Due.attempts (some id.thing) (refThings base.getter) +
        (Due.attempts (some id.thing) (refThings base.setter) +
          (Due.attempts (some id.thing) (refThings base.parent) +
            Due.attempts (some id.thing) (refThings base.twin))) := by
    rw [Graph.children_baseShape hid, Due.attempts_append, Due.attempts_append,
      Due.attempts_append]
    abel
  rw [htotal]
  refine (settles_pushOptional settles_pushObject base.getter).seq fun _ => ?_
  refine (settles_pushOptional settles_pushObject base.setter).seq fun _ => ?_
  refine (settles_pushOptional settles_pushObject base.parent).seq fun _ => ?_
  exact settles_pushOptional (settles_shadeTwin id base) base.twin

theorem settles_pushBaseShape (id : BaseShapeId) :
    B.Settles (pushBaseShape B.graph parent id : ChronM ω Unit) (Due.attempts parent [id.thing])
      B.Clear :=
  settles_claimed (settles_scanBaseShape id)

theorem settles_pushProperty (property : PropertyId) :
    B.Settles (pushProperty B.graph parent property : ChronM ω Unit)
      (Due.attempts parent property.thing?.toList) B.Clear := by
  cases property with
  | void => exact .pure Due.attempts_nil.symm
  | int value => exact .pure Due.attempts_nil.symm
  | string id => exact settles_pushString id
  | object id => exact settles_pushObject id

theorem settles_scanShape (steps : Nat) (id : ShapeId) :
    B.Settles (scanShape B.graph steps id : ChronM ω Unit) {.scan id.thing} B.Clear := by
  induction steps generalizing id with
  | zero => exact .throw _
  | succ steps ih =>
    refine (settles_noteScan id.thing).bind fun _ => .need fun shape hid => ?_
    rw [Graph.children_shape hid, ShapeCell.references, Due.attempts_cons, Due.attempts_append]
    refine (settles_pushBaseShape shape.base).seq fun _ => ?_
    refine (settles_pushProperty shape.property).seq fun _ => ?_
    cases shape.previous with
    | none => exact .pure Due.attempts_nil.symm
    | some previous => exact settles_claimed (ih previous)

theorem settles_pushShape (id : ShapeId) : B.Settles (pushShape B.graph parent id : ChronM ω Unit)
    (Due.attempts parent [id.thing]) B.Clear :=
  settles_claimed (settles_scanShape _ id)

/-! Things of any kind. -/

private theorem settles_setLabel (label : Label) (due : Multiset Due) :
    B.Settles (quietly (MarkM.setLabel label) : ChronM ω Unit) due (B.Left fun _ => due) := by
  refine settles_aside (fun s => ?_) due
  exact yields_modify.mpr ⟨rfl, rfl, rfl⟩

theorem settles_record (entry : Record) (due : Multiset Due) :
    B.Settles (quietly (MarkM.record entry) : ChronM ω Unit) due (B.Left fun _ => due) := by
  refine settles_aside (fun s => ?_) due
  exact yields_modify.mpr ⟨rfl, rfl, rfl⟩

private theorem settles_keepFilename (name : String) (due : Multiset Due) :
    B.Settles (quietly (modify fun s => { s with filenames := s.filenames.mark name }) :
      ChronM ω Unit) due (B.Left fun _ => due) := by
  refine settles_aside (fun s => ?_) due
  exact yields_modify.mpr ⟨rfl, rfl, rfl⟩

theorem settles_follow {push : Thing → ChronM ω Unit} {visits : List Visit}
    (hpush : ∀ thing, .report thing ∈ visits →
      B.Settles (push thing) (Due.attempts parent [thing]) B.Clear) :
    B.Settles (follow B.graph push visits)
      (Due.attempts parent (visits.filterMap Visit.thing?)) B.Clear := by
  induction visits with
  | nil => exact .pure Due.attempts_nil.symm
  | cons visit visits ih =>
    have hrest := ih fun thing hmem => hpush thing (List.mem_cons_of_mem _ hmem)
    change B.Settles (ChronM.visit B.graph push visit >>= fun _ => follow B.graph push visits) _ _
    cases visit with
    | setLabel label => exact (settles_setLabel label _).bind fun _ => hrest
    | keepFilename name => exact (settles_keepFilename name _).bind fun _ => hrest
    | broken fault => exact .throw_bind fault
    | report thing =>
      change B.Settles _ (Due.attempts parent (thing :: visits.filterMap Visit.thing?)) _
      rw [Due.attempts_cons]
      refine Settles.seq ?_ fun _ => hrest
      simp only [ChronM.visit]
      cases B.graph.objection? thing with
      | some fault => exact .throw_bind fault
      | none =>
        exact (hpush thing (List.mem_cons_self ..)).bind fun _ => settles_setLabel .blank 0

theorem settles_pushPlain {thing : Thing} (hkind : thing.kind ≠ .script) :
    B.Settles (pushPlain B.graph parent thing : ChronM ω Unit) (Due.attempts parent [thing])
      B.Clear := by
  obtain ⟨kind, index⟩ := thing
  cases kind with
  | object => exact settles_pushObject ⟨index⟩
  | string => exact settles_pushString ⟨index⟩
  | script => exact absurd rfl hkind
  | shape => exact settles_pushShape ⟨index⟩
  | baseShape => exact settles_pushBaseShape ⟨index⟩
  | typeObject => exact settles_pushTypeObject ⟨index⟩
  | xml => exact settles_pushXml ⟨index⟩

theorem settles_pushScript (id : ScriptId) :
    B.Settles (pushScript B.graph parent id : ChronM ω Unit) (Due.attempts parent [id.thing])
      B.Clear := by
  refine settles_claimed ((settles_noteScan id.thing).bind fun _ => ?_)
  exact settles_follow fun thing hmem => settles_pushPlain (Graph.kind_of_report_script hmem)

theorem settles_pushThing (thing : Thing) :
    B.Settles (pushThing B.graph parent thing : ChronM ω Unit) (Due.attempts parent [thing])
      B.Clear := by
  unfold pushThing
  split
  · rename_i hkind
    obtain ⟨kind, index⟩ := thing
    cases hkind
    exact settles_pushScript ⟨index⟩
  · rename_i hkind
    exact settles_pushPlain hkind

theorem settles_make (call : MarkingCall) :
    B.Settles (make B.graph call : ChronM ω Unit) 0 B.Clear :=
  (settles_look 0).bind fun _ => settles_follow fun thing _ => settles_pushThing thing

/-- What is shown of a thing is tried. -/
theorem settles_scanVisits (thing : Thing) :
    B.Settles (do
      noteScan thing
      follow B.graph (pushThing B.graph (some thing)) (childVisits B.graph true thing) :
        ChronM ω Unit) {.scan thing} B.Clear :=
  (settles_noteScan thing).bind fun _ => settles_follow fun child _ => settles_pushThing child

theorem settles_scanXml (id : XmlId) :
    B.Settles (scanXml B.graph id : ChronM ω Unit) {.scan id.thing} B.Clear :=
  settles_scanVisits id.thing

/-! Type objects. -/

private theorem settles_pushProperties (properties : List PropertyId) :
    B.Settles (properties.forM (pushProperty B.graph parent) : ChronM ω Unit)
      (Due.attempts parent (properties.filterMap PropertyId.thing?)) B.Clear := by
  induction properties with
  | nil => exact .pure Due.attempts_nil.symm
  | cons property properties ih =>
    have hsplit : (property :: properties).filterMap PropertyId.thing? =
        property.thing?.toList ++ properties.filterMap PropertyId.thing? := by
      rw [List.filterMap_cons]
      cases property.thing? <;> rfl
    rw [hsplit, Due.attempts_append]
    exact (settles_pushProperty property).seq fun _ => ih

theorem settles_scanTypeObject (id : TypeObjectId) :
    B.Settles (scanTypeObject B.graph id : ChronM ω Unit) {.scan id.thing} B.Clear := by
  refine (settles_noteScan id.thing).bind fun _ => .need fun type hid => ?_
  have htotal : Due.attempts (some id.thing) (B.graph.children id.thing) =
      Due.attempts (some id.thing) ((shownProperties true type).filterMap PropertyId.thing?) +
        (Due.attempts (some id.thing) (refThings type.proto) +
          (Due.attempts (some id.thing) (type.newScript.toList.flatMap fun newScript =>
              [newScript.function.thing, newScript.shape.thing]) +
            (Due.attempts (some id.thing) (refThings type.function) +
              Due.attempts (some id.thing)
                (if type.isLazy then [] else refThings type.singleton)))) := by
    simp only [Graph.children_typeObject hid, Due.attempts_append]
    abel
  rw [htotal]
  refine (settles_pushProperties _).seq fun _ => ?_
  refine (settles_pushOptional settles_pushObject type.proto).seq fun _ => ?_
  have hlast : B.Settles (do
      pushOptional (pushObject B.graph (some id.thing)) type.function
      if !type.isLazy then
        pushOptional (pushObject B.graph (some id.thing)) type.singleton : ChronM ω Unit)
      (Due.attempts (some id.thing) (refThings type.function) +
        Due.attempts (some id.thing) (if type.isLazy then [] else refThings type.singleton))
      B.Clear := by
    refine (settles_pushOptional settles_pushObject type.function).seq fun _ => ?_
    cases type.isLazy with
    | true => exact .pure Due.attempts_nil.symm
    | false => exact settles_pushOptional settles_pushObject type.singleton
  cases type.newScript with
  | none => exact (zero_add (_ : Multiset Due)).symm ▸ hlast
  | some newScript =>
    change B.Settles _ (Due.attempts (some id.thing)
      [newScript.function.thing, newScript.shape.thing] + _) _
    rw [Due.attempts_cons, add_assoc]
    refine (settles_pushObject newScript.function).seq fun _ => ?_
    exact (settles_pushShape newScript.shape).seq fun _ => hlast

/-! Objects. -/

/-- Nothing has been found. -/
theorem Settles.nothing : B.Settles (pure none : ChronM ω (Option ObjectId)) 0 B.Found :=
  fun _ _ h => ⟨h, nofun⟩

theorem settles_readValues {owner : ObjectId} {object : ObjectCell}
    (howner : B.graph.object? owner = some object) (region : Region) (count index : Nat)
    (hcount : 0 < count → index + count ≤ object.regionSize region) :
    B.Settles (readValues B.graph owner object region count index : ChronM ω (Option ObjectId))
      (Due.attempts (some owner.thing) (object.held region index count)) B.Found := by
  induction count generalizing index with
  | zero =>
    rw [ObjectCell.held, List.range'_zero, List.map_nil, List.filterMap_nil, Due.attempts_nil]
    exact .nothing
  | succ count ih =>
    have hheld : object.held region index (count + 1) =
        (object.regionValue region index).thing?.toList ++
          object.held region (index + 1) count := by
      rw [ObjectCell.held, List.range'_succ, List.map_cons, List.filterMap_cons]
      cases (object.regionValue region index).thing? <;> rfl
    have hstop : index + 1 + count ≤ object.regionSize region := by omega
    have hrest : B.Settles (readValues B.graph owner object region count (index + 1) :
          ChronM ω (Option ObjectId))
        (Due.attempts (some owner.thing) (object.held region (index + 1) count)) B.Found :=
      ih (index + 1) fun _ => hstop
    have hgo : B.Settles (readValues B.graph owner object region count (index + 1) :
          ChronM ω (Option ObjectId))
        (0 + Due.attempts (some owner.thing) (object.held region (index + 1) count)) B.Found := by
      rw [zero_add]
      exact hrest
    rw [hheld, Due.attempts_append, readValues]
    cases object.regionValue region index with
    | string id => exact (settles_pushString id).seq fun _ => hrest
    | object id =>
      refine (settles_color _).bind fun color => ?_
      intro hand c h
      rw [add_assoc] at h
      rw [yields_bind]
      refine (yields_attempt_balanced h color).imp fun claimed d hend => ?_
      obtain ⟨hbalanced, hnewly⟩ := hend
      cases claimed with
      | false =>
        rw [if_neg Bool.false_ne_true, zero_add] at hbalanced
        exact hrest hand d hbalanced
      | true =>
        -- What the other values owe goes with the rest of the range, and the scan is left in hand.
        have hheldRest : B.graph.held
            { owner, region, start := index + 1, stop := index + 1 + count } =
            object.held region (index + 1) count := by
          simp only [Graph.held, howner, Nat.add_sub_cancel_left]
        rw [if_pos rfl, add_left_comm, ← hheldRest] at hbalanced
        rw [if_pos rfl, yields_bind]
        refine ((settles_pushRange howner hstop _ d hbalanced).and (spares_pushRange _ d)).mono ?_
          fun _ _ _ => trivial
        intro _ e hend
        obtain ⟨hclear, hspares⟩ := hend
        refine ⟨clear_iff.mp hclear, fun found hfound => ?_⟩
        obtain rfl := Option.some.inj hfound
        exact hspares.newly (hnewly rfl)
    | _ => exact hgo

theorem settles_scanRange (range : ValueRange) :
    B.Settles (scanRange B.graph range : ChronM ω (Option ObjectId))
      ((StackEntry.values range).dues B.graph) B.Found := by
  refine .need fun object howner => .check fun hstop => ?_
  have hheld : B.graph.held range =
      object.held range.region range.start (range.stop - range.start) := by
    rw [Graph.held, howner]
  rw [StackEntry.dues, hheld]
  exact settles_readValues howner range.region _ range.start fun _ => by omega

/-- The dues of both runs of slots, of which one is put aside. Without an overflow there is
nothing to put aside. -/
private theorem settles_openSlots {id : ObjectId} {object : ObjectCell}
    (hid : B.graph.object? id = some object) :
    B.Settles (do
        if object.overflow.isSome then
          pushRange (object.whole id .dynamic)
        return some (object.whole id .fixed) : ChronM ω (Option ValueRange))
      ((StackEntry.values (object.whole id .dynamic)).dues B.graph +
        (StackEntry.values (object.whole id .fixed)).dues B.graph)
      (B.Left fun next =>
        (next.map fun range => (StackEntry.values range).dues B.graph).getD 0) := by
  refine .ite (fun _ => (settles_pushRange hid (Nat.le_refl _)).seq fun _ => .pure rfl)
    fun hnone => .pure ?_
  have hempty : object.region .dynamic = [] := by
    rw [Bool.not_eq_true, Option.isSome_eq_false_iff, Option.isNone_iff_eq_none] at hnone
    simp [ObjectCell.region, ObjectCell.regionSize, hnone]
  have hnothing : (StackEntry.values (object.whole id .dynamic)).dues B.graph = 0 := by
    change Due.attempts (some id.thing) (B.graph.held (object.whole id .dynamic)) = 0
    rw [Graph.held_whole hid, hempty, List.filterMap_nil, Due.attempts_nil]
  rw [hnothing, zero_add]
  rfl

/-- The dues of an object are those of its ranges once the object has been opened. -/
theorem settles_openObject (id : ObjectId) :
    B.Settles (openObject B.graph id : ChronM ω (Option ValueRange)) {.scan id.thing}
      (B.Left fun next =>
        (next.map fun range => (StackEntry.values range).dues B.graph).getD 0) := by
  refine (settles_noteScan id.thing).bind fun _ => .need fun object hid => ?_
  obtain ⟨objectClass, hclass⟩ := B.sound.exists_class hid
  rw [Graph.children_object B.sound hid hclass, Due.attempts_cons,
    Due.attempts_cons object.shape.thing]
  refine (settles_pushTypeObject object.type).seq fun _ => ?_
  refine (settles_pushShape object.shape).seq fun _ => .need fun other hother => ?_
  obtain rfl := Option.some.inj (hclass.symm.trans hother)
  refine .ite (fun harray => ?_) fun _ => ?_
  · subst harray
    refine .pure ?_
    rw [Class.hook, Class.native, if_neg Bool.false_ne_true, List.append_nil,
      Graph.things_elements hid]
    rfl
  · rw [Due.attempts_append]
    refine (settles_follow fun child _ => settles_pushThing child).seq fun _ => ?_
    cases objectClass.native with
    | false => exact .pure Due.attempts_nil.symm
    | true =>
      rw [if_pos rfl, Due.attempts_append, add_comm]
      exact settles_openSlots hid

theorem settles_scanObject (id : ObjectId) :
    B.Settles (scanObject B.graph id : ChronM ω (Option ObjectId)) {.scan id.thing} B.Found := by
  refine (settles_openObject id).bind fun next => ?_
  cases next with
  | some range => exact settles_scanRange range
  | none => exact .nothing

end Basis

end MarkPhase
