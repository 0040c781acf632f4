import Mathlib.Data.List.Forall2
import MarkPhase.Proofs.Pairs
import MarkPhase.Proofs.Safety

/-!
Objects with other numbers of inline slots. The number says where the slots of an object are
stored and nothing else, so heaps that the same calls have built for other numbers show the
same edges, and marking comes to the same end on both.
-/

namespace MarkPhase

/-! Writing the slots of an object. -/

namespace Builder

/-- The heap with another cell for an object. -/
def withObject (heap : Heap) (id : ObjectId) (cell : ObjectCell) : Heap :=
  { heap with
    graph := { heap.graph with objects := heap.graph.objects.modify id.index fun _ => cell } }

theorem object?_withObject {heap : Heap} {id : ObjectId} {old : ObjectCell}
    (hid : heap.graph.object? id = some old) (cell : ObjectCell) :
    (withObject heap id cell).graph.object? id = some cell := by
  change (heap.graph.objects.modify id.index fun _ => cell)[id.index]? = some cell
  rw [Array.getElem?_modify, if_pos rfl]
  change (heap.graph.object? id).map _ = _
  rw [hid, Option.map_some]

/-- A slot of a low enough index can be written on any object that is there. -/
theorem setSlot_eq {heap : Heap} {id : ObjectId} {cell : ObjectCell}
    (hid : heap.graph.object? id = some cell) {index : Nat} (hindex : index < 2 ^ 32 - 1)
    (value : Value) : setSlot id index value heap = .ok ()
      (withObject heap id (cell.written index value)) := by
  have hlength : cell.overflowLength index < 2 ^ 32 := by
    unfold ObjectCell.overflowLength
    split <;> omega
  have hfits : fitsMemory (cell.overflowLength index) Value.bytes = true := by
    refine decide_eq_true ?_
    change cell.overflowLength index * 16 < 2 ^ 47
    omega
  have hcontains : id.index < heap.graph.population .object :=
    of_decide_eq_true (Graph.contains_of_getElem? rfl hid)
  refine Yields.eq_ok ?_
  unfold setSlot
  simp only [yields_bind, yields_get, hid, yields_need_some, cell.write?_of_lt hindex]
  refine yields_ite (fun hlarge => absurd hlarge (by change ¬ 2 ^ 64 ≤ _; omega)) fun _ => ?_
  rw [yields_bind]
  refine yields_allocate (fun _ => ?_) fun fault hfault =>
    Bool.false_ne_true ((fitsMemory_of_allocationFault? hfault).symm.trans hfits)
  unfold editObject edit
  simp only [yields_bind, yields_get]
  exact yields_ite (fun _ => ⟨trivial, rfl⟩) fun hmissing => absurd hcontains hmissing

end Builder

/-! Heaps that differ in the numbers of inline slots. -/

/-- Two objects with the same fields and the same slots, wherever these are stored. -/
structure ObjectCell.Alike (object other : ObjectCell) : Prop where
  compartment : other.compartment = object.compartment
  type : other.type = object.type
  shape : other.shape = object.shape
  span : other.span = object.span
  elements : other.elements = object.elements
  privateThing : other.privateThing = object.privateThing
  slot : ∀ index, other.slot index = object.slot index

namespace ObjectCell.Alike

variable {object other : ObjectCell}

theorem make (compartment : CompartmentId) (type : TypeObjectId) (shape : ShapeId)
    (fixed fixed' : Nat) :
    (ObjectCell.make compartment type shape fixed).Alike (.make compartment type shape fixed') where
  compartment := rfl
  type := rfl
  shape := rfl
  span := rfl
  elements := rfl
  privateThing := rfl
  slot index := ((Carries.make compartment type shape fixed').slot index).trans
    ((Carries.make compartment type shape fixed).slot index).symm

theorem write (h : object.Alike other) (index : Nat) (value : Value) :
    (object.written index value).Alike (other.written index value) := by
  obtain ⟨hcompartment, htype, hshape, -, helements, hprivate⟩ := withSlot_fields object index value
  obtain ⟨hcompartment', htype', hshape', -, helements', hprivate'⟩ :=
    withSlot_fields other index value
  exact {
    compartment := hcompartment'.trans (h.compartment.trans hcompartment.symm)
    type := htype'.trans (h.type.trans htype.symm)
    shape := hshape'.trans (h.shape.trans hshape.symm)
    span := congrArg (max · (index + 1)) h.span
    elements := helements'.trans (h.elements.trans helements.symm)
    privateThing := hprivate'.trans (h.privateThing.trans hprivate.symm)
    slot := fun position => by rw [slot_written, slot_written, h.slot] }

end ObjectCell.Alike

/-- As many objects, and each like the one at its place. -/
structure SameObjects (objects others : Array ObjectCell) : Prop where
  size : others.size = objects.size
  alike : ∀ (index : Nat) (object other : ObjectCell),
    objects[index]? = some object → others[index]? = some other → object.Alike other

namespace SameObjects

variable {objects others : Array ObjectCell}

theorem getElem? (h : SameObjects objects others) (index : Nat) :
    (objects[index]? = none ∧ others[index]? = none) ∨
      ∃ object other, objects[index]? = some object ∧ others[index]? = some other ∧
        object.Alike other := by
  by_cases hlt : index < objects.size
  · have hlt' : index < others.size := h.size ▸ hlt
    exact Or.inr ⟨_, _, Array.getElem?_eq_getElem hlt, Array.getElem?_eq_getElem hlt',
      h.alike index _ _ (Array.getElem?_eq_getElem hlt) (Array.getElem?_eq_getElem hlt')⟩
  · have hge : objects.size ≤ index := Nat.le_of_not_lt hlt
    exact Or.inl ⟨Array.getElem?_eq_none hge, Array.getElem?_eq_none (h.size ▸ hge)⟩

theorem push (h : SameObjects objects others) {object other : ObjectCell}
    (halike : object.Alike other) : SameObjects (objects.push object) (others.push other) where
  size := by rw [Array.size_push, Array.size_push, h.size]
  alike index first second hfirst hsecond := by
    rw [Array.getElem?_push, ← h.size] at hfirst
    rw [Array.getElem?_push] at hsecond
    split at hfirst
    · rename_i hlast
      rw [if_pos hlast] at hsecond
      obtain rfl := Option.some.inj hfirst
      obtain rfl := Option.some.inj hsecond
      exact halike
    · rename_i hlast
      rw [if_neg hlast] at hsecond
      exact h.alike index first second hfirst hsecond

theorem modify (h : SameObjects objects others) (index : Nat)
    {change change' : ObjectCell → ObjectCell}
    (hchange : ∀ object other, objects[index]? = some object → others[index]? = some other →
      object.Alike other → (change object).Alike (change' other)) :
    SameObjects (objects.modify index change) (others.modify index change') where
  size := by rw [Array.size_modify, Array.size_modify, h.size]
  alike place first second hfirst hsecond := by
    rw [Array.getElem?_modify] at hfirst hsecond
    by_cases heq : index = place
    · subst heq
      rw [if_pos rfl] at hfirst hsecond
      obtain ⟨object, hobject, rfl⟩ := Option.map_eq_some_iff.mp hfirst
      obtain ⟨other, hother, rfl⟩ := Option.map_eq_some_iff.mp hsecond
      exact hchange object other hobject hother (h.alike index object other hobject hother)
    · rw [if_neg heq] at hfirst hsecond
      exact h.alike place first second hfirst hsecond

end SameObjects

/-- Another graph with the same things, where objects may have other numbers of inline slots. -/
inductive Graph.Resized (g : Graph) : Graph → Prop
  | intro {objects : Array ObjectCell} (h : SameObjects g.objects objects) :
      Resized g { g with objects }

namespace Graph.Resized

variable {g g' : Graph}

theorem population_eq (h : g.Resized g') (kind : Kind) :
    g'.population kind = g.population kind := by
  obtain ⟨hsame⟩ := h
  cases kind with
  | object => exact hsame.size
  | _ => rfl

theorem contains_eq (h : g.Resized g') (thing : Thing) : g'.contains thing = g.contains thing := by
  unfold contains
  rw [h.population_eq]

theorem compartments_eq (h : g.Resized g') : g'.compartments = g.compartments := by
  obtain ⟨-⟩ := h
  rfl

theorem atoms_eq (h : g.Resized g') : g'.atoms = g.atoms := by
  obtain ⟨-⟩ := h
  rfl

theorem string?_eq (h : g.Resized g') (id : StringId) : g'.string? id = g.string? id := by
  obtain ⟨-⟩ := h
  rfl

theorem baseShape?_eq (h : g.Resized g') (id : BaseShapeId) :
    g'.baseShape? id = g.baseShape? id := by
  obtain ⟨-⟩ := h
  rfl

/-- An object is there on both graphs or on neither. -/
theorem object? (h : g.Resized g') (id : ObjectId) :
    (g.object? id = none ∧ g'.object? id = none) ∨
      ∃ object other, g.object? id = some object ∧ g'.object? id = some other ∧
        object.Alike other := by
  obtain ⟨hsame⟩ := h
  exact hsame.getElem? id.index

theorem wordSized (h : g.Resized g') (hwords : g.WordSized) : g'.WordSized := by
  intro cell hcell
  obtain ⟨index, hindex⟩ := Array.getElem?_of_mem hcell
  have hcell : g'.object? ⟨index⟩ = some cell := hindex
  obtain ⟨-, hnone⟩ | ⟨object, other, hobject, hother, halike⟩ := h.object? ⟨index⟩
  · rw [hcell] at hnone
    cases hnone
  · obtain rfl := Option.some.inj (hcell.symm.trans hother)
    exact halike.elements ▸ hwords object (Array.mem_of_getElem? hobject)

theorem compartmentOf?_eq (h : g.Resized g') (thing : Thing) :
    g'.compartmentOf? thing = g.compartmentOf? thing := by
  obtain ⟨kind, index⟩ := thing
  cases kind with
  | object =>
    change (g'.object? ⟨index⟩).map _ = (g.object? ⟨index⟩).map _
    obtain ⟨hnone, hnone'⟩ | ⟨object, other, hobject, hother, halike⟩ := h.object? ⟨index⟩
    · rw [hnone, hnone']
    · rw [hobject, hother, Option.map_some, Option.map_some, halike.compartment]
  | _ =>
    obtain ⟨-⟩ := h
    rfl

theorem objection?_eq (h : g.Resized g') (thing : Thing) :
    g'.objection? thing = g.objection? thing := by
  unfold objection? hasCompartment
  rw [h.compartmentOf?_eq, h.compartments_eq]

theorem allowed_iff (h : g.Resized g') (filter : Option CompartmentId) (thing : Thing) :
    g'.Allowed filter thing ↔ g.Allowed filter thing := by
  unfold Allowed
  rw [h.compartmentOf?_eq]

theorem withObject (h : g.Resized g') (id : ObjectId) {object other : ObjectCell}
    (halike : object.Alike other) :
    ({ g with objects := g.objects.modify id.index fun _ => object } : Graph).Resized
      { g' with objects := g'.objects.modify id.index fun _ => other } := by
  obtain ⟨hsame⟩ := h
  exact .intro (hsame.modify id.index fun _ _ _ _ _ => halike)

/-! What tracers are shown. -/

theorem objectVisits_eq (h : g.Resized g') (id : ObjectId) :
    objectVisits g' id = objectVisits g id := by
  unfold objectVisits
  obtain ⟨hnone, hnone'⟩ | ⟨object, other, hobject, hother, halike⟩ := h.object? id
  · rw [hnone, hnone']
  · have hclass : g'.classOf? other = g.classOf? object := by
      obtain ⟨-⟩ := h
      unfold classOf?
      rw [halike.shape]
      rfl
    have hslots : slotVisits id other = slotVisits id object := by
      simp only [slotVisits, halike.span, halike.slot]
    have helements : other.region .elements = object.region .elements := by
      unfold ObjectCell.region ObjectCell.regionSize ObjectCell.regionValue
      simp only [halike.elements]
    have hhook : hookVisits other = hookVisits object := by
      funext hook
      simp only [hookVisits, helements, halike.privateThing]
    simp only [hobject, hother, hclass, hslots, hhook, halike.type, halike.shape]

theorem childVisits_eq (h : g.Resized g') (isMarker : Bool) (thing : Thing) :
    childVisits g' isMarker thing = childVisits g isMarker thing := by
  obtain ⟨kind, index⟩ := thing
  cases kind with
  | object => exact h.objectVisits_eq ⟨index⟩
  | _ =>
    obtain ⟨-⟩ := h
    rfl

theorem lineageVisits_eq (h : g.Resized g') (shape : ShapeId) :
    lineageVisits g' shape = lineageVisits g shape := by
  have hfrom : ∀ steps lastParent next,
      lineageFrom g' steps lastParent next = lineageFrom g steps lastParent next := by
    obtain ⟨-⟩ := h
    intro steps
    induction steps with
    | zero => exact fun _ next => by cases next <;> rfl
    | succ steps ih =>
      intro lastParent next
      cases next with
      | none => rfl
      | some id => simp only [lineageFrom, ih, shape?, baseShape?]
  unfold lineageVisits
  rw [hfrom]
  obtain ⟨-⟩ := h
  rfl

theorem visits_eq (h : g.Resized g') (isMarker : Bool) (context : Context) (call : MarkingCall) :
    call.visits g' isMarker context = call.visits g isMarker context := by
  cases call with
  | children one => exact h.childVisits_eq isMarker one
  | lineage shape => exact h.lineageVisits_eq shape
  | wrapped name held =>
    simp only [MarkingCall.visits, MarkingCall.wrappedVisits, h.compartmentOf?_eq]
  | _ => rfl

theorem shownEdges_eq (h : g.Resized g') (thing : Thing) :
    g'.shownEdges thing = g.shownEdges thing := by
  have hvisit : TraceM.visit g' = TraceM.visit g := by
    funext visit
    cases visit with
    | report thing => simp only [TraceM.visit, h.objection?_eq]
    | _ => rfl
  simp only [shownEdges, TraceM.make, hvisit, h.visits_eq]

theorem child_iff (h : g.Resized g') (parent child : Thing) :
    g'.Child parent child ↔ g.Child parent child := by
  unfold Child
  rw [h.shownEdges_eq]

theorem reachable_iff (h : g.Resized g') {filter : Option CompartmentId} {roots : List Thing}
    {thing : Thing} : g'.Reachable filter roots thing ↔ g.Reachable filter roots thing := by
  constructor <;> intro hreachable
  · induction hreachable with
    | root hroot hallowed => exact .root hroot ((h.allowed_iff filter _).mp hallowed)
    | child _ hchild hallowed ih =>
      exact ih.child ((h.child_iff _ _).mp hchild) ((h.allowed_iff filter _).mp hallowed)
  · induction hreachable with
    | root hroot hallowed => exact .root hroot ((h.allowed_iff filter _).mpr hallowed)
    | child _ hchild hallowed ih =>
      exact ih.child ((h.child_iff _ _).mpr hchild) ((h.allowed_iff filter _).mpr hallowed)

theorem knownOn_iff (h : g.Resized g') (command : Command) :
    command.KnownOn g' ↔ command.KnownOn g := by
  unfold Command.KnownOn MarkingCall.KnownOn
  split
  · simp only [h.contains_eq]
  · rfl

/-- The characters of strings have nothing to do with objects. -/
theorem linearChars_eq (h : g.Resized g') (id : StringId) :
    g'.linearChars id = g.linearChars id := by
  obtain ⟨-⟩ := h
  have hrange : ∀ objects id start length,
      ({ g with objects } : Graph).readRange id start length = g.readRange id start length := by
    intro objects id start length
    fun_induction g.readRange id start length <;> rw [readRange] <;> simp_all [string?]
  simp only [linearChars, hrange, string?]

end Graph.Resized

/-! The same calls, with other numbers of inline slots. -/

/-- If the call writes a slot, a span can still be counted above it. -/
def Construction.SlotCounts : Construction → Prop
  | .slot _ index _ => index < 2 ^ 32 - 1
  | _ => True

/-- The same call, but for the number of inline slots of a new object. There is memory for
either number, or the want of it shows in the same way. -/
inductive Construction.Resized : Construction → Construction → Prop
  | object (compartment : CompartmentId) (type : TypeObjectId) (shape : ShapeId)
      {fixed fixed' : Nat}
      (hmemory : allocationFault? fixed Value.bytes = allocationFault? fixed' Value.bytes) :
      Resized (.object compartment type shape fixed) (.object compartment type shape fixed')
  | same {call : Construction} (hslot : call.SlotCounts) : Resized call call

/-- Another heap that differs in the numbers of inline slots only. -/
structure Heap.Resized (heap next : Heap) : Prop where
  graph : heap.graph.Resized next.graph
  ledger : next.ledger = heap.ledger

namespace Builder

/-- From graphs that differ in the numbers of inline slots only, the changes lead to such
graphs again. -/
def Parallel (change change' : Graph → Graph) : Prop :=
  ∀ g g' : Graph, g.Resized g' → (change g).Resized (change' g')

theorem Parallel.of_apart {change : Graph → Graph}
    (happart : ∀ g objects, change { g with objects } = { change g with objects })
    (hobjects : ∀ g, (change g).objects = g.objects) : Parallel change change := by
  rintro g _ @⟨objects, hsame⟩
  rw [happart g objects]
  rw [← hobjects g] at hsame
  exact .intro hsame

/-- The builders do the same on heaps that differ in the numbers of inline slots only. -/
abbrev Twins {α : Type} (m n : Builder α) : Prop :=
  Coupled Heap.Resized (fun _ => True) m n

namespace Twins

variable {α β : Type} {change change' : Graph → Graph}

theorem updateGraph (h : Parallel change change') :
    Twins (updateGraph change) (updateGraph change') :=
  .modify fun _ _ hheaps => ⟨h _ _ hheaps.graph, hheaps.ledger⟩

theorem updateLedger (change : Ledger → Ledger) :
    Twins (updateLedger change) (updateLedger change) :=
  .modify fun _ _ hheaps => ⟨hheaps.graph, congrArg change hheaps.ledger⟩

theorem add {kind : Kind} (h : Parallel change change') :
    Twins (add change : Builder (Ref kind)) (add change') :=
  .modifyGet fun _ _ hheaps =>
    ⟨congrArg (Ref.mk ∘ toWord) (hheaps.graph.population_eq kind).symm, trivial,
      h _ _ hheaps.graph, hheaps.ledger⟩

theorem addString (cell : StringCell) : Twins (addString cell) (addString cell) :=
  add (.of_apart (fun _ _ => rfl) fun _ => rfl)

theorem addBaseShape (cell : BaseShapeCell) : Twins (addBaseShape cell) (addBaseShape cell) :=
  add (.of_apart (fun _ _ => rfl) fun _ => rfl)

theorem edit {kind : Kind} (ref : Ref kind) (h : Parallel change change') :
    Twins (edit ref change) (edit ref change') := by
  refine .get fun heap next hheaps => ?_
  rw [hheaps.graph.population_eq kind]
  exact .ite (fun _ => updateGraph h) fun _ => .throw _

theorem editType (type : TypeObjectId) (change : TypeCell → TypeCell) :
    Twins (editType type change) (editType type change) :=
  edit type (.of_apart (fun _ _ => rfl) fun _ => rfl)

theorem editXml (node : XmlId) (change : XmlCell → XmlCell) :
    Twins (editXml node change) (editXml node change) :=
  edit node (.of_apart (fun _ _ => rfl) fun _ => rfl)

theorem editObject (object : ObjectId) {change : ObjectCell → ObjectCell}
    (h : ∀ cell other, cell.Alike other → (change cell).Alike (change other)) :
    Twins (editObject object change) (editObject object change) := by
  refine edit object ?_
  rintro g _ ⟨hsame⟩
  exact .intro (hsame.modify object.index fun cell other _ _ halike => h cell other halike)

theorem atomize (chars : String) : Twins (atomize chars) (atomize chars) := by
  refine .get fun heap next hheaps => ?_
  rw [hheaps.graph.atoms_eq]
  split
  · exact .pure trivial
  · exact (addString _).seq fun id => .seq (updateGraph <| .of_apart (fun _ _ => rfl) fun _ => rfl)
      fun _ => .pure trivial

theorem newObject (compartment : CompartmentId) (type : TypeObjectId) (shape : ShapeId)
    {fixed fixed' : Nat}
    (hmemory : allocationFault? fixed Value.bytes = allocationFault? fixed' Value.bytes) :
    Twins (newObject compartment type shape fixed) (newObject compartment type shape fixed') := by
  refine .seq ?_ fun _ => add ?_
  · unfold allocate
    rw [hmemory]
    split
    · exact .pure trivial
    · exact .throw _
  · rintro g _ ⟨hsame⟩
    exact .intro (hsame.push (.make compartment type shape fixed fixed'))

/-- The place of a slot does not decide whether it can be written. -/
theorem setSlot (object : ObjectId) {index : Nat} (hindex : index < 2 ^ 32 - 1) (value : Value) :
    Twins (setSlot object index value) (setSlot object index value) := by
  intro heap next hheaps
  obtain ⟨hnone, hnone'⟩ | ⟨cell, other, hcell, hother, halike⟩ := hheaps.graph.object? object
  · change Matched _ _ ((need (heap.graph.object? object) >>= _) heap)
      ((need (next.graph.object? object) >>= _) next)
    rw [hnone, hnone']
    exact ((Coupled.need none).bind fun _ hfound => nomatch hfound) hheaps
  · rw [setSlot_eq hcell hindex, setSlot_eq hother hindex]
    exact .ok trivial ⟨hheaps.graph.withObject object (halike.write index value), hheaps.ledger⟩

theorem newDependent (compartment : CompartmentId) (base : StringId) (start length : Nat) :
    Twins (newDependent compartment base start length)
      (newDependent compartment base start length) := by
  have hchars : Twins (lookUp fun g => g.linearChars base)
      (lookUp fun g => g.linearChars base) := by
    refine .get fun heap next hheaps => ?_
    dsimp only
    rw [hheaps.graph.linearChars_eq]
    split
    · exact .pure trivial
    · exact .throw _
  refine hchars.seq fun chars => .check ?_
  split
  · exact addString _
  · exact .throw _

theorem concat (compartment : CompartmentId) (left right : StringId) :
    Twins (concat compartment left right) (concat compartment left right) := by
  refine .get fun heap next hheaps => ?_
  rw [hheaps.graph.string?_eq]
  refine (Coupled.need _).bind fun first _ => .get fun heap next hheaps => ?_
  rw [hheaps.graph.string?_eq]
  exact (Coupled.need _).bind fun second _ => .check (addString _)

theorem newOwnedBaseShape (twin : BaseShapeId) :
    Twins (newOwnedBaseShape twin) (newOwnedBaseShape twin) := by
  refine .get fun heap next hheaps => ?_
  rw [hheaps.graph.baseShape?_eq]
  exact (Coupled.need _).bind fun base _ => .check (addBaseShape _)

theorem newScript (script : ScriptCell) : Twins (newScript script) (newScript script) := by
  have hadd : Twins (Builder.add fun g => { g with scripts := g.scripts.push script } :
      Builder ScriptId) (Builder.add fun g => { g with scripts := g.scripts.push script }) :=
    add (.of_apart (fun _ _ => rfl) fun _ => rfl)
  unfold Builder.newScript
  split
  · exact (updateLedger _).seq fun _ => hadd
  · exact hadd

theorem newCompartment (name : String) : Twins (newCompartment name) (newCompartment name) := by
  have hpush : Parallel (fun g => { g with compartments := g.compartments.push name })
      (fun g => { g with compartments := g.compartments.push name }) :=
    .of_apart (fun _ _ => rfl) fun _ => rfl
  refine .seq (.modifyGet fun heap next hheaps => ⟨?_, trivial, hpush _ _ hheaps.graph,
    hheaps.ledger⟩) fun id => (updateLedger _).seq fun _ => .pure trivial
  rw [hheaps.graph.compartments_eq]

end Twins

end Builder

namespace Construction

open Builder

variable {call call' : Construction}

theorem twins_perform (h : call.Resized call') : Twins call.perform call'.perform := by
  have hmade : ∀ {kind : Kind} {part part' : Builder (Ref kind)}, Twins part part' →
      Twins (made part) (made part') := fun hpart => hpart.seq fun _ => .pure trivial
  have hdone : ∀ {part part' : Builder Unit}, Twins part part' →
      Twins (done part) (done part') := fun hpart => hpart.seq fun _ => .pure trivial
  have hadd : ∀ {kind : Kind} {change : Graph → Graph},
      (∀ (g : Graph) objects, change { g with objects } = { change g with objects }) →
      (∀ g, (change g).objects = g.objects) →
      Twins (add change : Builder (Ref kind)) (add change) :=
    fun happart hobjects => .add (.of_apart happart hobjects)
  obtain ⟨compartment, type, shape, hmemory⟩ | ⟨hslot⟩ := h
  · exact hmade (.newObject compartment type shape hmemory)
  cases call with
  | compartment name => exact (Twins.newCompartment name).seq fun _ => .pure trivial
  | string c chars => exact hmade (.addString _)
  | atom chars => exact hmade (.atomize chars)
  | dependent c base start length => exact hmade (.newDependent c base start length)
  | concat c left right => exact hmade (.concat c left right)
  | baseShape c declared getter setter parent => exact hmade (.addBaseShape _)
  | ownedBaseShape twin => exact hmade (.newOwnedBaseShape twin)
  | shape c base property previous => exact hmade (hadd (fun _ _ => rfl) fun _ => rfl)
  | typeObject c properties proto function ctor =>
    exact hmade (hadd (fun _ _ => rfl) fun _ => rfl)
  | singleton type owner isLazy => exact hdone (.editType type _)
  | newScript type ctor => exact hdone (.editType type _)
  | typeProperty type id => exact hdone (.editType type _)
  | object c type lineage fixed => exact hmade (.newObject c type lineage rfl)
  | slot owner index value => exact hdone (.setSlot owner hslot value)
  | objectShape owner lineage =>
    exact hdone (.editObject owner fun _ _ halike => { halike with shape := rfl })
  | element owner value =>
    exact hdone (.editObject owner fun _ _ halike =>
      { halike with elements := congrArg (·.push value) halike.elements })
  | privateThing owner thing =>
    exact hdone (.editObject owner fun _ _ halike => { halike with privateThing := rfl })
  | script cell => exact hmade (.newScript cell)
  | xml c kind => exact hmade (hadd (fun _ _ => rfl) fun _ => rfl)
  | xmlName node name => exact hdone (.editXml node _)
  | xmlValue node value => exact hdone (.editXml node _)
  | xmlObject node reflected => exact hdone (.editXml node _)
  | xmlKid node kid => exact hdone ((Twins.editXml kid _).seq fun _ => Twins.editXml node _)
  | xmlAttr node attr => exact hdone ((Twins.editXml attr _).seq fun _ => Twins.editXml node _)

end Construction

namespace Heap

variable {heap next : Heap}

theorem Resized.after (h : heap.Resized next) {call call' : Construction}
    (hcall : call.Resized call') : (heap.after call).Resized (next.after call') := by
  unfold Heap.after
  obtain ⟨_, heap', next', hheap, hnext, -, hheaps⟩ | ⟨_, heap', next', hheap, hnext, hheaps⟩ :=
    (Construction.twins_perform hcall h).cases_ends
  · simpa only [EStateM.run, hheap, hnext] using hheaps
  · simpa only [EStateM.run, hheap, hnext] using hheaps

/-- The numbers of inline slots are all that tells apart what the same calls have built. -/
theorem resized_built {history history' : List Construction}
    (h : List.Forall₂ Construction.Resized history history') :
    (built history).Resized (built history') := by
  have hfold : ∀ {heap next : Heap}, heap.Resized next →
      (history.foldl Heap.after heap).Resized (history'.foldl Heap.after next) := by
    induction h with
    | nil => exact fun hheaps => hheaps
    | cons hcall _ ih => exact fun hheaps => ih (hheaps.after hcall)
  exact hfold ⟨.intro ⟨rfl, by simp [Heap.empty]⟩, rfl⟩

end Heap

end MarkPhase
