import MarkPhase.Proofs.Growth
import MarkPhase.Proofs.Ropes

/-!
Chains of objects on a short stack. Each object of a chain refers to the next in its last
slot and to no other thing, but for a type object without children and shapes that lead to
shapes only. Nothing is left of a range once its last value has been read, and an object that
is found is scanned when the entry of the object before it has gone; so however long the chain
is, at most one entry lies on that of the type object.
-/

namespace MarkPhase

variable {ω : Type}

namespace Graph

/-- From the shape on a lineage leads to shapes and base shapes only. -/
inductive BareLineage (g : Graph) : ShapeId → Prop
  | mk {id : ShapeId} {shape : ShapeCell} {base : BaseShapeCell} (hid : g.shape? id = some shape)
      (hbase : g.baseShape? shape.base = some base) (hproperty : shape.property.thing? = none)
      (hgetter : base.getter = none) (hsetter : base.setter = none) (hparent : base.parent = none)
      (hprevious : ∀ previous, shape.previous = some previous → g.BareLineage previous) :
      g.BareLineage id

/-- A plain object of which no slot refers to anything, unless the last refers to `next`. -/
structure Link (g : Graph) (type : TypeObjectId) (id : ObjectId) (next : Option ObjectId)
    (object : ObjectCell) : Prop where
  cell : g.object? id = some object
  type : object.type = type
  plain : g.classOf? object = some .plain
  lineage : g.BareLineage object.shape
  slot : ∀ index < object.span, (object.slot index).thing? =
    if index + 1 = object.span then next.map Ref.thing else none
  span : next.isSome = true → 0 < object.span

/-- Objects that share a type object, each referring to the one after it. -/
inductive Chain (g : Graph) (type : TypeObjectId) : List ObjectId → Prop
  | last {id : ObjectId} {object : ObjectCell} : g.Link type id none object → Chain g type [id]
  | link {id next : ObjectId} {rest : List ObjectId} {object : ObjectCell} :
      g.Link type id (some next) object → Chain g type (next :: rest) →
      Chain g type (id :: next :: rest)

/-- A chain begins with the object. -/
def Heads (g : Graph) (type : TypeObjectId) (id : ObjectId) : Prop :=
  ∃ rest, g.Chain type (id :: rest)

theorem Heads.exists_link {g : Graph} {type : TypeObjectId} {id : ObjectId}
    (h : g.Heads type id) : ∃ next object, g.Link type id next object ∧
      ∀ other, next = some other → g.Heads type other := by
  obtain ⟨rest, hchain⟩ := h
  cases hchain with
  | last hlink => exact ⟨none, _, hlink, nofun⟩
  | link hlink hrest => exact ⟨_, _, hlink, fun other heq => Option.some.inj heq ▸ ⟨_, hrest⟩⟩

variable {g : Graph} {type : TypeObjectId} {id : ObjectId} {next : Option ObjectId}
  {object : ObjectCell}

/-- The last slot is the last inline slot in use, unless the overflow is in use. -/
theorem Link.fixed (h : g.Link type id next object) (hstored : object.Stored) {index : Nat}
    (hlt : index < object.regionSize .fixed) : (object.regionValue .fixed index).thing? =
      if index + 1 = object.regionSize .fixed then
        (if object.regionSize .dynamic = 0 then next else none).map Ref.thing
      else none := by
  have hspan := hstored.span_eq
  rw [← ObjectCell.slot_fixed hlt, h.slot index (by omega)]
  by_cases hlast : index + 1 = object.regionSize .fixed
  · by_cases hempty : object.regionSize .dynamic = 0
    · rw [if_pos (by omega), if_pos hlast, if_pos hempty]
    · rw [if_neg (by omega), if_pos hlast, if_neg hempty]
      rfl
  · rw [if_neg (by omega), if_neg hlast]

theorem Link.dynamic (h : g.Link type id next object) (hstored : object.Stored) {index : Nat}
    (hlt : index < object.regionSize .dynamic) : (object.regionValue .dynamic index).thing? =
      if index + 1 = object.regionSize .dynamic then next.map Ref.thing else none := by
  have hspan := hstored.span_eq
  rw [← hstored.slot_dynamic hlt, h.slot _ (by omega)]
  by_cases hlast : index + 1 = object.regionSize .dynamic
  · rw [if_pos (by omega), if_pos hlast]
  · rw [if_neg (by omega), if_neg hlast]

end Graph

/-! Moves that leave the work alone. -/

namespace Marking

/-- Whoever watches the marker refuses nothing. -/
def Gentle (s : Marking ω) : Prop :=
  ∀ watcher, s.watcher = some watcher → ∀ entry memory,
    (watcher.observer.refuses entry memory).1 = false

/-- Between the two states no work has been added or taken, and marks have only been added. -/
structure Still (s t : Marking ω) : Prop where
  stack : t.stack = s.stack
  delayed : t.delayed = s.delayed
  delays : t.delays = s.delays
  marks : ∀ thing, s.marks.isMarked thing = true → t.marks.isMarked thing = true
  gentle : s.Gentle → t.Gentle

instance : IsPreorder (Marking ω) Still where
  refl _ := ⟨rfl, rfl, rfl, fun _ => id, id⟩
  trans _ _ _ h h' := {
    stack := h'.stack.trans h.stack
    delayed := h'.delayed.trans h.delayed
    delays := h'.delays.trans h.delays
    marks := fun thing hmarked => h'.marks thing (h.marks thing hmarked)
    gentle := fun hgentle => h'.gentle (h.gentle hgentle) }

end Marking

namespace MarkM

open Marking

variable {g : Graph}

theorem still_noteScan (thing : Thing) : Respects Still (noteScan thing : MarkM ω Unit) := by
  refine .modify fun s => ⟨rfl, rfl, rfl, fun _ => id, fun hgentle watcher hwatcher => ?_⟩
  obtain ⟨before, hbefore, rfl⟩ := Option.map_eq_some_iff.mp hwatcher
  exact hgentle before hbefore

theorem still_claim (thing : Thing) (color : Color) :
    Respects Still (claim g thing color : MarkM ω Bool) := fun s =>
  yields_claim_of g (refl_of Still s) (fun _ => refl_of Still s) fun _ =>
    ⟨rfl, rfl, rfl, fun _ hmarked => (ThingTable.isMarked_set _ _ _ _).mpr (Or.inr hmarked), id⟩

theorem still_color : Respects Still (color : MarkM ω Color) :=
  .bind .get fun _ => .pure _

private theorem still_claimed {thing : Thing} {next : MarkM ω Unit} (hnext : Respects Still next) :
    Respects Still (do if ← claim g thing (← color) then next) :=
  .bind still_color fun _ => .bind (still_claim thing _) fun _ => .ite hnext (.pure _)

private theorem still_shadeTwin (id : BaseShapeId) (base : BaseShapeCell) (twin : BaseShapeId) :
    Respects Still (shadeTwin g id base twin : MarkM ω Unit) := by
  refine .bind (.need _) fun other => .ite (.bind still_color fun color => ?_) (.throw _)
  refine .modify fun s => ?_
  by_cases hmarked : s.marks.isMarked twin.thing = true
  · rw [if_pos hmarked]
    exact refl_of Still s
  · rw [if_neg hmarked]
    exact {
      stack := rfl
      delayed := rfl
      delays := rfl
      marks := fun _ hold => (ThingTable.isMarked_set _ _ _ _).mpr (Or.inr hold)
      gentle := fun hgentle => hgentle }

private theorem still_pushBaseShape {id : BaseShapeId} {base : BaseShapeCell}
    (hid : g.baseShape? id = some base) (hgetter : base.getter = none)
    (hsetter : base.setter = none) (hparent : base.parent = none) :
    Respects Still (pushBaseShape g id : MarkM ω Unit) := by
  refine still_claimed (.bind (still_noteScan id.thing) fun _ => .needed fun found hfound => ?_)
  obtain rfl : base = found := Option.some.inj (hid.symm.trans hfound)
  rw [hgetter, hsetter, hparent]
  refine .bind (.pure _) fun _ => .bind (.pure _) fun _ => .bind (.pure _) fun _ => ?_
  cases base.twin with
  | none => exact .pure _
  | some twin => exact still_shadeTwin id base twin

/-- A property that no thing names asks for nothing. -/
private theorem still_pushProperty {property : PropertyId} (hnone : property.thing? = none) :
    Respects Still (pushProperty g property : MarkM ω Unit) := by
  cases property with
  | void => exact .pure _
  | int value => exact .pure _
  | string id => cases hnone
  | object id => cases hnone

private theorem still_scanShape (steps : Nat) {id : ShapeId} (h : g.BareLineage id) :
    Respects Still (scanShape g steps id : MarkM ω Unit) := by
  induction steps generalizing id with
  | zero => exact .throw _
  | succ steps ih =>
    cases h with
    | @mk _ shape base hid hbase hproperty hgetter hsetter hparent hprevious =>
      refine .bind (still_noteScan id.thing) fun _ => .needed fun found hfound => ?_
      obtain rfl : shape = found := Option.some.inj (hid.symm.trans hfound)
      refine .bind (still_pushBaseShape hbase hgetter hsetter hparent) fun _ => ?_
      refine .bind (still_pushProperty hproperty) fun _ => ?_
      cases hnext : shape.previous with
      | none => exact .pure _
      | some previous => exact still_claimed (ih (hprevious previous hnext))

theorem still_pushShape {id : ShapeId} (h : g.BareLineage id) :
    Respects Still (pushShape g id : MarkM ω Unit) :=
  still_claimed (still_scanShape _ h)

private theorem still_optional {kind : Kind} {push : Ref kind → MarkM ω Unit}
    {ref : Option (Ref kind)} (hnone : ∀ thing, thing ∉ refThings ref) :
    Respects Still (pushOptional push ref) := by
  cases ref with
  | none => exact .pure _
  | some id => exact absurd (List.mem_singleton_self id.thing) (hnone id.thing)

/-- A type object without children asks for nothing. -/
theorem still_scanTypeObject (h : g.Sound) {id : TypeObjectId}
    (hchildless : ∀ child, ¬ g.Child id.thing child) :
    Respects Still (scanTypeObject g id : MarkM ω Unit) := by
  refine .bind (still_noteScan id.thing) fun _ => .needed fun type hid => ?_
  have hproperties : ∀ child, .report child ∉ Graph.propertyVisits true type :=
    fun child hmem => hchildless child ((h.child_typeObject hid).mpr (Or.inl hmem))
  have hfields : ∀ child, .report child ∉ Graph.typeFieldVisits type :=
    fun child hmem => hchildless child ((h.child_typeObject hid).mpr (Or.inr hmem))
  simp only [Graph.report_mem_typeFieldVisits, not_or] at hfields
  have hnew : type.newScript = none := by
    cases hscript : type.newScript with
    | none => rfl
    | some newScript => exact absurd (by simp [hscript]) (hfields newScript.shape.thing).2.2.1
  refine .bind (.forM fun property hproperty => still_pushProperty ?_) fun _ => ?_
  · simp only [Graph.propertyVisits, List.mem_flatMap, report_mem_edgeVisits] at hproperties
    exact Option.eq_none_iff_forall_ne_some.mpr fun child hchild =>
      hproperties child ⟨property, hproperty, hchild⟩
  refine .bind (still_optional fun thing => (hfields thing).1) fun _ => ?_
  rw [hnew]
  refine .bind (still_optional fun thing => (hfields thing).2.2.2) fun _ => ?_
  cases hlazy : type.isLazy with
  | true => exact .pure _
  | false => exact still_optional fun thing hthing => (hfields thing).2.1 ⟨hlazy, hthing⟩

/-! Reading values. -/

private theorem still_pushRange_empty {range : ValueRange} (hempty : range.start = range.stop) :
    Respects Still (pushRange range : MarkM ω Unit) := by
  unfold pushRange
  rw [if_neg (by omega), if_neg (by omega)]
  exact .pure _

/-- Reading values of which only the last may refer to anything, and then to an object, leaves
nothing behind. What is found is that object. -/
theorem yields_readValues {owner : ObjectId} {object : ObjectCell} {region : Region}
    {next : Option ObjectId} (count : Nat) {index : Nat}
    (hvalues : ∀ position, index ≤ position → position < index + count →
      (object.regionValue region position).thing? =
        if position + 1 = index + count then next.map Ref.thing else none) (s : Marking ω) :
    Yields (readValues g owner object region count index) s
      (fun found t => s.Still t ∧ (found = none ∨ found = next)) fun _ t => s.Still t := by
  induction count generalizing index with
  | zero => exact ⟨refl_of Still s, Or.inl rfl⟩
  | succ count ih =>
    have hfirst := hvalues index (Nat.le_refl _) (by omega)
    have hrest : Yields (readValues g owner object region count (index + 1)) s _ _ :=
      ih fun position hle hlt => by
        rw [hvalues position (by omega) (by omega), Nat.add_right_comm, Nat.add_assoc index]
    unfold readValues
    cases hvalue : object.regionValue region index with
    | string id =>
      rw [hvalue, Value.thing?] at hfirst
      split at hfirst
      · obtain ⟨other, -, hthing⟩ := Option.map_eq_some_iff.mp hfirst.symm
        cases congrArg Thing.kind hthing
      · cases hfirst
    | object id =>
      rw [hvalue, Value.thing?] at hfirst
      split at hfirst
      · rename_i hlast
        obtain ⟨other, hnext, hthing⟩ := Option.map_eq_some_iff.mp hfirst.symm
        obtain rfl := Ref.thing_injective hthing
        obtain rfl : count = 0 := by omega
        -- This was the last value, so the rest that is pushed is empty.
        simp only [yields_bind]
        refine (still_color s).mono (fun color t ht => ?_) fun _ _ ht => ht
        refine (still_claim other.thing color t).mono (fun claimed u hu => ?_)
          fun _ _ hu => trans_of Still ht hu
        refine yields_ite (fun _ => ?_) fun _ => ⟨trans_of Still ht hu, Or.inl rfl⟩
        rw [yields_bind]
        refine (still_pushRange_empty (by rfl) u).mono (fun _ v hv => ?_) fun _ v hv => ?_
        · exact ⟨trans_of Still (trans_of Still ht hu) hv, Or.inr hnext.symm⟩
        · exact trans_of Still (trans_of Still ht hu) hv
      · cases hfirst
    | _ => exact hrest

end MarkM

end MarkPhase
