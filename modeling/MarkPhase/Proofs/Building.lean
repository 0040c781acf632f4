import Mathlib.Data.List.Induction
import MarkPhase.Construction
import MarkPhase.Proofs.Outcomes
import MarkPhase.Proofs.Slots

/-!
Histories of building calls that name nothing but what is already there. The heap
that such a history builds is sound: a call stores the references it was given
and copies none but sound cells, things and compartments never go away, and
strings and base shapes never change.
-/

namespace MarkPhase

namespace Graph

/-- Nothing of `g` is missing on `g'`, and its strings and base shapes are unchanged. -/
structure Within (g g' : Graph) : Prop where
  population : ∀ kind, g.population kind ≤ g'.population kind
  compartments : g.compartments.size ≤ g'.compartments.size
  strings : ∀ id cell, g.string? id = some cell → g'.string? id = some cell
  baseShapes : ∀ id cell, g.baseShape? id = some cell → g'.baseShape? id = some cell

namespace Within

variable {g g' part : Graph}

/-- Strings, base shapes and compartments are as before. -/
theorem of_eq (hpopulation : ∀ kind, g.population kind ≤ g'.population kind)
    (hcompartments : g'.compartments = g.compartments) (hstrings : g'.strings = g.strings)
    (hbases : g'.baseShapes = g.baseShapes) : g.Within g' where
  population := hpopulation
  compartments := Nat.le_of_eq (congrArg Array.size hcompartments).symm
  strings id cell hid := by rwa [string?, hstrings]
  baseShapes id cell hid := by rwa [baseShape?, hbases]

theorem contains (h : g.Within g') {thing : Thing} (hthing : g.contains thing = true) :
    g'.contains thing = true := by
  have hlt : thing.index < g.population thing.kind := of_decide_eq_true hthing
  exact decide_eq_true (Nat.lt_of_lt_of_le hlt (h.population thing.kind))

theorem hasCompartment (h : g.Within g') {compartment : CompartmentId}
    (hc : g.hasCompartment compartment = true) : g'.hasCompartment compartment = true := by
  have hlt : compartment.index < g.compartments.size := of_decide_eq_true hc
  exact decide_eq_true (Nat.lt_of_lt_of_le hlt h.compartments)

theorem knows (h : g.Within g') {compartment : CompartmentId} {things : List Thing}
    (hk : g.Knows compartment things) : g'.Knows compartment things := by
  exact ⟨h.hasCompartment hk.1, fun thing hthing => h.contains (hk.2 thing hthing)⟩

theorem knowsString (h : g.Within g') {cell : StringCell} (hk : g.KnowsString cell) :
    g'.KnowsString cell := by
  refine ⟨h.knows hk.1, fun base hbase => ?_⟩
  obtain ⟨below, hbelow, hrope⟩ := hk.2 base hbase
  exact ⟨below, h.strings base below hbelow, hrope⟩

theorem knowsBaseShape (h : g.Within g') {cell : BaseShapeCell} (hk : g.KnowsBaseShape cell) :
    g'.KnowsBaseShape cell := by
  refine ⟨h.knows hk.1, fun id hid => ?_⟩
  obtain ⟨twin, htwin, hagrees⟩ := hk.2 id hid
  exact ⟨twin, h.baseShapes id twin htwin, hagrees⟩

theorem supports (h : g.Within g') (hs : g.Supports part) : g'.Supports part where
  atoms := h.hasCompartment hs.atoms
  objects cell hcell := ⟨h.knows (hs.objects cell hcell).1, (hs.objects cell hcell).2⟩
  strings cell hcell := h.knowsString (hs.strings cell hcell)
  scripts cell hcell := h.knows (hs.scripts cell hcell)
  shapes cell hcell := h.knows (hs.shapes cell hcell)
  baseShapes cell hcell := h.knowsBaseShape (hs.baseShapes cell hcell)
  typeObjects cell hcell := h.knows (hs.typeObjects cell hcell)
  xmlNodes cell hcell := h.knows (hs.xmlNodes cell hcell)

end Within

private theorem getElem?_push_of_some {α : Type} {cells : Array α} {index : Nat} {cell new : α}
    (h : cells[index]? = some cell) : (cells.push new)[index]? = some cell := by
  obtain ⟨hlt, _⟩ := Array.getElem?_eq_some_iff.mp h
  rw [Array.getElem?_push, if_neg (Nat.ne_of_lt hlt), h]

theorem forall_mem_push {α : Type} {cells : Array α} {cell : α} {good : α → Prop}
    (hold : ∀ other ∈ cells, good other) (hnew : good cell) :
    ∀ other ∈ cells.push cell, good other := by
  intro other hother
  rcases Array.mem_push.mp hother with hmem | rfl
  · exact hold other hmem
  · exact hnew

theorem forall_mem_modify {α : Type} {cells : Array α} {index : Nat} {change : α → α}
    {good : α → Prop} (hold : ∀ other ∈ cells, good other)
    (hchange : ∀ cell, cells[index]? = some cell → good (change cell)) :
    ∀ other ∈ cells.modify index change, good other := by
  intro other hother
  obtain ⟨i, hi⟩ := Array.getElem?_of_mem hother
  rw [Array.getElem?_modify] at hi
  split at hi
  · rename_i heq
    obtain ⟨cell, hcell, rfl⟩ := Option.map_eq_some_iff.mp hi
    exact hchange cell (heq ▸ hcell)
  · exact hold other (Array.mem_of_getElem? hi)

namespace Sound

variable {g : Graph}

/-! One more thing of a kind, which names what is there. -/

theorem push_object (h : g.Sound) {cell : ObjectCell}
    (hcell : g.Knows cell.compartment cell.references) (hstored : cell.Stored) :
    ({ g with objects := g.objects.push cell } : Graph).Sound := by
  have hw : g.Within { g with objects := g.objects.push cell } :=
    .of_eq (fun kind => by cases kind <;> simp [population]) rfl rfl rfl
  exact { hw.supports h with
    objects := forall_mem_push (hw.supports h).objects ⟨hw.knows hcell, hstored⟩ }

theorem push_script (h : g.Sound) {cell : ScriptCell}
    (hcell : g.Knows cell.compartment cell.references) :
    ({ g with scripts := g.scripts.push cell } : Graph).Sound := by
  have hw : g.Within { g with scripts := g.scripts.push cell } :=
    .of_eq (fun kind => by cases kind <;> simp [population]) rfl rfl rfl
  exact { hw.supports h with
    scripts := forall_mem_push (hw.supports h).scripts (hw.knows hcell) }

theorem push_shape (h : g.Sound) {cell : ShapeCell}
    (hcell : g.Knows cell.compartment cell.references) :
    ({ g with shapes := g.shapes.push cell } : Graph).Sound := by
  have hw : g.Within { g with shapes := g.shapes.push cell } :=
    .of_eq (fun kind => by cases kind <;> simp [population]) rfl rfl rfl
  exact { hw.supports h with
    shapes := forall_mem_push (hw.supports h).shapes (hw.knows hcell) }

theorem push_typeObject (h : g.Sound) {cell : TypeCell}
    (hcell : g.Knows cell.compartment cell.references) :
    ({ g with typeObjects := g.typeObjects.push cell } : Graph).Sound := by
  have hw : g.Within { g with typeObjects := g.typeObjects.push cell } :=
    .of_eq (fun kind => by cases kind <;> simp [population]) rfl rfl rfl
  exact { hw.supports h with
    typeObjects := forall_mem_push (hw.supports h).typeObjects (hw.knows hcell) }

theorem push_xml (h : g.Sound) {cell : XmlCell}
    (hcell : g.Knows cell.compartment cell.references) :
    ({ g with xmlNodes := g.xmlNodes.push cell } : Graph).Sound := by
  have hw : g.Within { g with xmlNodes := g.xmlNodes.push cell } :=
    .of_eq (fun kind => by cases kind <;> simp [population]) rfl rfl rfl
  exact { hw.supports h with
    xmlNodes := forall_mem_push (hw.supports h).xmlNodes (hw.knows hcell) }

theorem push_string (h : g.Sound) {cell : StringCell} (hcell : g.KnowsString cell) :
    ({ g with strings := g.strings.push cell } : Graph).Sound := by
  have hw : g.Within { g with strings := g.strings.push cell } :=
    ⟨fun kind => by cases kind <;> simp [population], Nat.le_refl _,
      fun _ _ hid => getElem?_push_of_some hid, fun _ _ hid => hid⟩
  exact { hw.supports h with
    strings := forall_mem_push (hw.supports h).strings (hw.knowsString hcell) }

theorem push_baseShape (h : g.Sound) {cell : BaseShapeCell} (hcell : g.KnowsBaseShape cell) :
    ({ g with baseShapes := g.baseShapes.push cell } : Graph).Sound := by
  have hw : g.Within { g with baseShapes := g.baseShapes.push cell } :=
    ⟨fun kind => by cases kind <;> simp [population], Nat.le_refl _, fun _ _ hid => hid,
      fun _ _ hid => getElem?_push_of_some hid⟩
  exact { hw.supports h with
    baseShapes := forall_mem_push (hw.supports h).baseShapes (hw.knowsBaseShape hcell) }

theorem push_compartment (h : g.Sound) (name : String) :
    ({ g with compartments := g.compartments.push name } : Graph).Sound := by
  have hw : g.Within { g with compartments := g.compartments.push name } :=
    ⟨fun kind => by cases kind <;> exact Nat.le_refl _, by simp, fun _ _ hid => hid,
      fun _ _ hid => hid⟩
  exact { hw.supports h with }

theorem with_atoms (h : g.Sound) (atoms : List (String × StringId)) :
    ({ g with atoms } : Graph).Sound := by
  have hw : g.Within { g with atoms } :=
    .of_eq (fun kind => by cases kind <;> exact Nat.le_refl _) rfl rfl rfl
  exact { hw.supports h with }

/-! A changed thing, which still names what is there. -/

theorem modify_object (h : g.Sound) (index : Nat) {change : ObjectCell → ObjectCell}
    (hchange : ∀ cell, g.objects[index]? = some cell →
      g.Knows (change cell).compartment (change cell).references ∧ (change cell).Stored) :
    ({ g with objects := g.objects.modify index change } : Graph).Sound := by
  have hw : g.Within { g with objects := g.objects.modify index change } :=
    .of_eq (fun kind => by cases kind <;> simp [population]) rfl rfl rfl
  exact { hw.supports h with
    objects := forall_mem_modify (hw.supports h).objects fun cell hcell =>
      ⟨hw.knows (hchange cell hcell).1, (hchange cell hcell).2⟩ }

theorem modify_typeObject (h : g.Sound) (index : Nat) {change : TypeCell → TypeCell}
    (hchange : ∀ cell, g.typeObjects[index]? = some cell →
      g.Knows (change cell).compartment (change cell).references) :
    ({ g with typeObjects := g.typeObjects.modify index change } : Graph).Sound := by
  have hw : g.Within { g with typeObjects := g.typeObjects.modify index change } :=
    .of_eq (fun kind => by cases kind <;> simp [population]) rfl rfl rfl
  exact { hw.supports h with
    typeObjects := forall_mem_modify (hw.supports h).typeObjects fun cell hcell =>
      hw.knows (hchange cell hcell) }

theorem within_modify_xml (g : Graph) (index : Nat) (change : XmlCell → XmlCell) :
    g.Within { g with xmlNodes := g.xmlNodes.modify index change } :=
  .of_eq (fun kind => by cases kind <;> simp [population]) rfl rfl rfl

theorem modify_xml (h : g.Sound) (index : Nat) {change : XmlCell → XmlCell}
    (hchange : ∀ cell, g.xmlNodes[index]? = some cell →
      g.Knows (change cell).compartment (change cell).references) :
    ({ g with xmlNodes := g.xmlNodes.modify index change } : Graph).Sound := by
  have hw := within_modify_xml g index change
  exact { hw.supports h with
    xmlNodes := forall_mem_modify (hw.supports h).xmlNodes fun cell hcell =>
      hw.knows (hchange cell hcell) }

end Sound

end Graph

namespace Construction

/-- The things that a call is given. -/
def references : Construction → List Thing
  | .compartment _ => []
  | .string _ _ => []
  | .atom _ => []
  | .dependent _ base _ _ => [base.thing]
  | .concat _ left right => [left.thing, right.thing]
  | .baseShape _ _ getter setter parent =>
    refThings getter ++ refThings setter ++ refThings parent
  | .ownedBaseShape twin => [twin.thing]
  | .shape _ base property previous =>
    base.thing :: (property.thing?.toList ++ refThings previous)
  | .typeObject _ properties proto function ctor =>
    properties.filterMap (fun property => property.bind PropertyId.thing?) ++
      refThings proto ++ refThings function ++
      ctor.toList.flatMap fun ctor => [ctor.function.thing, ctor.shape.thing]
  | .singleton type owner _ => [type.thing, owner.thing]
  | .newScript type ctor => [type.thing, ctor.function.thing, ctor.shape.thing]
  | .typeProperty type id => type.thing :: id.thing?.toList
  | .object _ type lineage _ => [type.thing, lineage.thing]
  | .slot owner _ value => owner.thing :: value.thing?.toList
  | .objectShape owner lineage => [owner.thing, lineage.thing]
  | .element owner value => owner.thing :: value.thing?.toList
  | .privateThing owner thing => owner.thing :: thing.toList
  | .script cell => cell.references
  | .xml _ _ => []
  | .xmlName node name => node.thing :: refThings name
  | .xmlValue node value => node.thing :: refThings value
  | .xmlObject node reflected => node.thing :: refThings reflected
  | .xmlKid node kid => [node.thing, kid.thing]
  | .xmlAttr node attr => [node.thing, attr.thing]

/-- The compartment that a call is given, if it takes one. -/
def compartment? : Construction → Option CompartmentId
  | .string c _ => some c
  | .dependent c _ _ _ => some c
  | .concat c _ _ => some c
  | .baseShape c _ _ _ _ => some c
  | .shape c _ _ _ => some c
  | .typeObject c _ _ _ _ => some c
  | .object c _ _ _ => some c
  | .script cell => some cell.compartment
  | .xml c _ => some c
  | _ => none

/-- The call names only things and compartments of the graph. -/
def KnownOn (g : Graph) (call : Construction) : Prop :=
  (∀ thing ∈ call.references, g.contains thing = true) ∧
    ∀ compartment, call.compartment? = some compartment → g.hasCompartment compartment = true

instance (g : Graph) (call : Construction) : Decidable (call.KnownOn g) :=
  inferInstanceAs (Decidable ((∀ thing ∈ call.references, g.contains thing = true) ∧
    ∀ compartment ∈ call.compartment?, g.hasCompartment compartment = true))

end Construction

/-- Each call of the history names only what the calls before it have built. -/
def Grounded (history : List Construction) : Prop :=
  ∀ before call after, history = before ++ call :: after →
    call.KnownOn (Heap.built before).graph

theorem Grounded.init {before : List Construction} {call : Construction}
    (h : Grounded (before ++ [call])) : Grounded before := by
  intro first other rest hsplit
  exact h first other (rest ++ [call]) (by rw [hsplit, List.append_assoc]; rfl)

theorem grounded_iff {history : List Construction} : Grounded history ↔
    ∀ index (h : index < history.length),
      history[index].KnownOn (Heap.built (history.take index)).graph := by
  constructor
  · intro hgrounded index h
    exact hgrounded (history.take index) history[index] (history.drop (index + 1))
      (by rw [List.getElem_cons_drop, List.take_append_drop])
  · rintro hknown before call after rfl
    have hlength : before.length < (before ++ call :: after).length := by
      rw [List.length_append, List.length_cons]
      omega
    simpa using hknown before.length hlength

instance (history : List Construction) : Decidable (Grounded history) :=
  decidable_of_iff _ grounded_iff.symm

/-- Whether the call ends or fails, it leaves a sound graph. -/
def LeavesSound {α : Type} (call : Builder α) (heap : Heap) : Prop :=
  Yields call heap (fun _ next => next.graph.Sound) fun _ next => next.graph.Sound

namespace Builder

open MarkPhase.Graph

variable {heap : Heap}

private theorem knows_of_references {g : Graph} {compartment : CompartmentId}
    {old new : List Thing} (h : g.Knows compartment old)
    (hnew : ∀ thing ∈ new, thing ∈ old ∨ g.contains thing = true) : g.Knows compartment new := by
  refine ⟨h.1, fun thing hthing => ?_⟩
  rcases hnew thing hthing with hold | hknown
  · exact h.2 thing hold
  · exact hknown

theorem leavesSound_edit {kind : Kind} {ref : Ref kind} {change : Graph → Graph}
    (h : heap.graph.Sound) (hchange : (change heap.graph).Sound) :
    LeavesSound (edit ref change) heap := by
  unfold LeavesSound edit
  rw [yields_bind, yields_get]
  exact yields_ite (fun _ => hchange) fun _ => h

theorem leavesSound_atomize (h : heap.graph.Sound) (chars : String) :
    LeavesSound (atomize chars) heap := by
  unfold LeavesSound atomize
  rw [yields_bind, yields_get]
  split
  · exact h
  · have hcell : heap.graph.KnowsString ⟨.atoms, .linear chars⟩ :=
      ⟨⟨h.atoms, by simp [StringCell.references]⟩, by simp [StringCell.base?]⟩
    exact (h.push_string hcell).with_atoms _

theorem leavesSound_newDependent (h : heap.graph.Sound) {compartment : CompartmentId}
    (hc : heap.graph.hasCompartment compartment = true) {base : StringId}
    (hbase : heap.graph.contains base.thing = true) (start length : Nat) :
    LeavesSound (newDependent compartment base start length) heap := by
  unfold LeavesSound newDependent lookUp
  simp only [yields_bind, yields_get]
  split
  · rename_i chars hchars
    have hcell : heap.graph.KnowsString ⟨compartment, .dependent base start length⟩ := by
      refine ⟨⟨hc, by simpa [StringCell.references] using hbase⟩, fun id hid => ?_⟩
      obtain rfl : base = id := by simpa [StringCell.base?] using hid
      obtain ⟨below, hbelow⟩ := exists_string hbase
      refine ⟨below, hbelow, ?_⟩
      unfold linearChars at hchars
      rw [hbelow] at hchars
      cases hlayout : below.layout with
      | rope left right length => simp [hlayout] at hchars
      | linear chars => simp [StringCell.isRope, hlayout]
      | dependent base start length => simp [StringCell.isRope, hlayout]
    rw [yields_pure]
    refine yields_ite (fun _ => h) fun _ => ?_
    split
    · exact h.push_string hcell
    · exact h
  · exact h

theorem leavesSound_concat (h : heap.graph.Sound) {compartment : CompartmentId}
    (hc : heap.graph.hasCompartment compartment = true) {left right : StringId}
    (hleft : heap.graph.contains left.thing = true)
    (hright : heap.graph.contains right.thing = true) :
    LeavesSound (concat compartment left right) heap := by
  obtain ⟨first, hfirst⟩ := exists_string hleft
  obtain ⟨second, hsecond⟩ := exists_string hright
  unfold LeavesSound concat
  simp only [yields_bind, yields_get, hfirst, hsecond, yields_need_some]
  refine yields_ite (fun _ => h) fun _ => ?_
  refine h.push_string ⟨⟨hc, ?_⟩, by simp [StringCell.base?]⟩
  simp [StringCell.references, hleft, hright]

theorem leavesSound_newOwnedBaseShape (h : heap.graph.Sound) {twin : BaseShapeId}
    (htwin : heap.graph.contains twin.thing = true) :
    LeavesSound (newOwnedBaseShape twin) heap := by
  obtain ⟨base, hbase⟩ := exists_baseShape htwin
  have hknown := h.baseShape hbase
  unfold LeavesSound newOwnedBaseShape
  simp only [yields_bind, yields_get, hbase, yields_need_some]
  refine yields_ite (fun _ => h) fun hunowned => ?_
  have hnone : base.twin = none := by
    simpa [BaseShapeCell.isOwned] using hunowned
  refine h.push_baseShape ⟨knows_of_references hknown.1 ?_, fun id hid => ?_⟩
  · intro thing hthing
    simp only [BaseShapeCell.references, List.mem_append, mem_refThings, Option.some.injEq,
      exists_eq_left'] at hthing ⊢
    rcases hthing with hold | rfl
    · exact Or.inl (Or.inl hold)
    · exact Or.inr htwin
  · obtain rfl : twin = id := by simpa using hid
    exact ⟨base, hbase, ⟨hnone, rfl, rfl, rfl, rfl⟩⟩

theorem leavesSound_editType (h : heap.graph.Sound) (type : TypeObjectId)
    {change : TypeCell → TypeCell}
    (hcompartment : ∀ cell, (change cell).compartment = cell.compartment)
    (hchange : ∀ cell, ∀ thing ∈ (change cell).references,
      thing ∈ cell.references ∨ heap.graph.contains thing = true) :
    LeavesSound (editType type change) heap := by
  refine leavesSound_edit h (h.modify_typeObject type.index fun cell hcell => ?_)
  rw [hcompartment]
  exact knows_of_references (h.typeObjects cell (Array.mem_of_getElem? hcell)) (hchange cell)

/-- A change of one node leaves a sound graph with the same things. -/
theorem yields_editXml (h : heap.graph.Sound) (node : XmlId) {change : XmlCell → XmlCell}
    (hcompartment : ∀ cell, (change cell).compartment = cell.compartment)
    (hchange : ∀ cell, ∀ thing ∈ (change cell).references,
      thing ∈ cell.references ∨ heap.graph.contains thing = true) :
    Yields (editXml node change) heap
      (fun _ next => next.graph.Sound ∧
        ∀ thing, heap.graph.contains thing = true → next.graph.contains thing = true)
      fun _ next => next.graph.Sound := by
  have hchanged := h.modify_xml node.index fun cell hcell => by
    rw [hcompartment]
    exact knows_of_references (h.xmlNodes cell (Array.mem_of_getElem? hcell)) (hchange cell)
  unfold editXml edit
  rw [yields_bind, yields_get]
  exact yields_ite (fun _ => ⟨hchanged, fun _ hthing =>
    (Sound.within_modify_xml heap.graph node.index change).contains hthing⟩) fun _ => h

theorem leavesSound_editXml (h : heap.graph.Sound) (node : XmlId) {change : XmlCell → XmlCell}
    (hcompartment : ∀ cell, (change cell).compartment = cell.compartment)
    (hchange : ∀ cell, ∀ thing ∈ (change cell).references,
      thing ∈ cell.references ∨ heap.graph.contains thing = true) :
    LeavesSound (editXml node change) heap :=
  (yields_editXml h node hcompartment hchange).imp fun _ _ hnext => hnext.1

theorem leavesSound_editObject (h : heap.graph.Sound) (object : ObjectId)
    {change : ObjectCell → ObjectCell}
    (hchange : ∀ cell, heap.graph.object? object = some cell → cell.Stored →
      (change cell).compartment = cell.compartment ∧ (change cell).Stored ∧
        ∀ thing ∈ (change cell).references,
          thing ∈ cell.references ∨ heap.graph.contains thing = true) :
    LeavesSound (editObject object change) heap := by
  refine leavesSound_edit h (h.modify_object object.index fun cell hcell => ?_)
  obtain ⟨hknown, hstored⟩ := h.objects cell (Array.mem_of_getElem? hcell)
  obtain ⟨hcompartment, hstored', hrefs⟩ := hchange cell hcell hstored
  rw [hcompartment]
  exact ⟨knows_of_references hknown hrefs, hstored'⟩

theorem leavesSound_setSlot (h : heap.graph.Sound) {object : ObjectId} (index : Nat)
    {value : Value} (hobject : heap.graph.contains object.thing = true)
    (hvalue : ∀ thing, value.thing? = some thing → heap.graph.contains thing = true) :
    LeavesSound (setSlot object index value) heap := by
  obtain ⟨cell, hcell⟩ := exists_object hobject
  unfold LeavesSound setSlot
  simp only [yields_bind, yields_get, hcell, yields_need_some]
  refine yields_ite (fun _ => h) fun _ => ?_
  rw [yields_bind]
  refine yields_allocate (fun _ => ?_) fun _ _ => h
  split
  · rename_i written hwritten
    refine leavesSound_editObject h object fun old hold hstored => ?_
    obtain rfl : cell = old := Option.some.inj (hcell.symm.trans hold)
    obtain ⟨hcompartment, hstored', hrefs⟩ := ObjectCell.stored_write? hwritten hstored
    refine ⟨hcompartment, hstored', fun thing hthing => ?_⟩
    rcases hrefs thing hthing with hold | hnew
    · exact Or.inl hold
    · exact Or.inr (hvalue thing hnew)
  · exact h

theorem leavesSound_newScript (h : heap.graph.Sound) {script : ScriptCell}
    (hscript : heap.graph.Knows script.compartment script.references) :
    LeavesSound (newScript script) heap := by
  unfold LeavesSound newScript
  split
  · exact h.push_script hscript
  · exact h.push_script hscript

/-- Two nodes of a sound graph may be linked: the kid's parent is set first. -/
theorem leavesSound_link (h : heap.graph.Sound) {node kid : XmlId} {link : XmlCell → XmlCell}
    (hnode : heap.graph.contains node.thing = true)
    (hkid : heap.graph.contains kid.thing = true)
    (hcompartment : ∀ cell, (link cell).compartment = cell.compartment)
    (hlink : ∀ cell, ∀ thing ∈ (link cell).references,
      thing ∈ cell.references ∨ thing = kid.thing) :
    LeavesSound (do
      editXml kid fun cell => { cell with parent := some node }
      editXml node link) heap := by
  have hparent : ∀ cell : XmlCell,
      ∀ thing ∈ ({ cell with parent := some node } : XmlCell).references,
      thing ∈ cell.references ∨ heap.graph.contains thing = true := by
    intro cell thing hthing
    simp only [XmlCell.references, List.mem_append, mem_refThings, Option.some.injEq,
      exists_eq_left'] at hthing ⊢
    rcases hthing with ((hfields | rfl) | hkids) | hattrs
    · exact Or.inl (Or.inl (Or.inl (Or.inl hfields)))
    · exact Or.inr hnode
    · exact Or.inl (Or.inl (Or.inr hkids))
    · exact Or.inl (Or.inr hattrs)
  unfold LeavesSound
  rw [yields_bind]
  refine Yields.imp (yields_editXml h kid (fun _ => rfl) hparent) fun _ next hnext => ?_
  refine leavesSound_editXml hnext.1 node hcompartment fun cell thing hthing => ?_
  rcases hlink cell thing hthing with hold | rfl
  · exact Or.inl hold
  · exact Or.inr (hnext.2 _ hkid)

end Builder

namespace Construction

open MarkPhase.Graph Builder

variable {heap : Heap}

private theorem leavesSound_made {kind : Kind} {call : Builder (Ref kind)}
    (h : LeavesSound call heap) : LeavesSound (made call) heap := by
  unfold LeavesSound made
  rw [yields_bind]
  exact h

private theorem leavesSound_done {call : Builder Unit} (h : LeavesSound call heap) :
    LeavesSound (done call) heap := by
  unfold LeavesSound done
  rw [yields_bind]
  exact h

section Change

variable (h : heap.graph.Sound) {call : Construction} (hcall : call.KnownOn heap.graph)

include h hcall

/-! A change that adds to a cell only what the call names leaves a sound graph. -/

private theorem leavesSound_changeType (type : TypeObjectId) {change : TypeCell → TypeCell}
    (hcompartment : ∀ cell, (change cell).compartment = cell.compartment)
    (hchange : ∀ cell, ∀ thing ∈ (change cell).references,
      thing ∈ cell.references ∨ thing ∈ call.references) :
    LeavesSound (done (editType type change)) heap :=
  leavesSound_done (leavesSound_editType h type hcompartment fun cell thing hthing =>
    (hchange cell thing hthing).imp_right (hcall.1 thing))

private theorem leavesSound_changeObject (owner : ObjectId) {change : ObjectCell → ObjectCell}
    (hkept : ∀ cell, cell.Stored →
      (change cell).compartment = cell.compartment ∧ (change cell).Stored)
    (hchange : ∀ cell, ∀ thing ∈ (change cell).references,
      thing ∈ cell.references ∨ thing ∈ call.references) :
    LeavesSound (done (editObject owner change)) heap := by
  refine leavesSound_done (leavesSound_editObject h owner fun cell _ hstored => ?_)
  obtain ⟨hcompartment, hstored'⟩ := hkept cell hstored
  exact ⟨hcompartment, hstored', fun thing hthing =>
    (hchange cell thing hthing).imp_right (hcall.1 thing)⟩

private theorem leavesSound_changeXml (node : XmlId) {change : XmlCell → XmlCell}
    (hcompartment : ∀ cell, (change cell).compartment = cell.compartment)
    (hchange : ∀ cell, ∀ thing ∈ (change cell).references,
      thing ∈ cell.references ∨ thing ∈ call.references) :
    LeavesSound (done (editXml node change)) heap :=
  leavesSound_done (leavesSound_editXml h node hcompartment fun cell thing hthing =>
    (hchange cell thing hthing).imp_right (hcall.1 thing))

end Change

/-- A call that names what is there leaves a sound graph. -/
theorem leavesSound_perform (h : heap.graph.Sound) (call : Construction)
    (hcall : call.KnownOn heap.graph) : LeavesSound call.perform heap := by
  have hrefs := hcall.1
  have hcompartment := hcall.2
  cases call with
  | compartment name => exact h.push_compartment name
  | string c chars =>
    exact leavesSound_made (h.push_string ⟨⟨hcompartment c rfl, by simp [StringCell.references]⟩,
      by simp [StringCell.base?]⟩)
  | atom chars => exact leavesSound_made (leavesSound_atomize h chars)
  | dependent c base start length =>
    exact leavesSound_made (leavesSound_newDependent h (hcompartment c rfl)
      (hrefs _ (by simp [references])) start length)
  | concat c left right =>
    exact leavesSound_made (leavesSound_concat h (hcompartment c rfl)
      (hrefs _ (by simp [references])) (hrefs _ (by simp [references])))
  | baseShape c declared getter setter parent =>
    refine leavesSound_made (h.push_baseShape ⟨⟨hcompartment c rfl, fun thing hthing => ?_⟩,
      by simp⟩)
    exact hrefs thing (by simpa [references, BaseShapeCell.references] using hthing)
  | ownedBaseShape twin =>
    exact leavesSound_made (leavesSound_newOwnedBaseShape h (hrefs _ (by simp [references])))
  | shape c base property previous =>
    exact leavesSound_made (h.push_shape ⟨hcompartment c rfl, hrefs⟩)
  | typeObject c properties proto function ctor =>
    refine leavesSound_made (h.push_typeObject ⟨hcompartment c rfl, fun thing hthing => ?_⟩)
    apply hrefs thing
    simp only [TypeCell.references, references, List.mem_append, mem_refThings] at hthing ⊢
    simpa using hthing
  | singleton type owner isLazy =>
    refine leavesSound_changeType h hcall type (fun _ => rfl) fun cell thing hthing => ?_
    simp only [TypeCell.references, references, List.mem_append, mem_refThings,
      List.mem_cons] at hthing ⊢
    grind
  | newScript type ctor =>
    refine leavesSound_changeType h hcall type (fun _ => rfl) fun cell thing hthing => ?_
    simp only [TypeCell.references, references, List.mem_append, Option.toList_some,
      List.flatMap_singleton, List.mem_cons, List.not_mem_nil, or_false] at hthing ⊢
    grind
  | typeProperty type id =>
    refine leavesSound_changeType h hcall type (fun _ => rfl) fun cell thing hthing => ?_
    simp only [TypeCell.references, references, Array.toList_push, List.filterMap_append,
      List.mem_append, List.mem_filterMap, List.mem_cons, Option.mem_toList] at hthing ⊢
    grind
  | object c type lineage fixed =>
    apply leavesSound_made
    unfold LeavesSound Builder.newObject
    rw [yields_bind]
    refine yields_allocate (fun _ => h.push_object ⟨hcompartment c rfl, fun thing hthing => ?_⟩
      (ObjectCell.stored_make c type lineage fixed)) fun _ _ => h
    apply hrefs thing
    simpa [ObjectCell.references, ObjectCell.make, ObjectCell.values, Value.thing?,
      references] using hthing
  | slot owner index value =>
    exact leavesSound_done (leavesSound_setSlot h index (hrefs _ (by simp [references]))
      fun thing hthing => hrefs thing (by simp [references, hthing]))
  | objectShape owner lineage =>
    refine leavesSound_changeObject h hcall owner
      (fun _ hstored => ⟨rfl, hstored.span_le, hstored.span_lt⟩)
      fun cell thing hthing => ?_
    simp only [ObjectCell.references, ObjectCell.values, references, List.mem_cons] at hthing ⊢
    grind
  | element owner value =>
    refine leavesSound_changeObject h hcall owner
      (fun _ hstored => ⟨rfl, hstored.span_le, hstored.span_lt⟩)
      fun cell thing hthing => ?_
    simp only [ObjectCell.references, ObjectCell.values, references, Array.toList_push,
      List.mem_cons, List.mem_append, List.mem_filterMap, Option.mem_toList] at hthing ⊢
    grind
  | privateThing owner thing =>
    refine leavesSound_changeObject h hcall owner
      (fun _ hstored => ⟨rfl, hstored.span_le, hstored.span_lt⟩)
      fun cell other hother => ?_
    simp only [ObjectCell.references, ObjectCell.values, references, List.mem_cons,
      List.mem_append, Option.mem_toList] at hother ⊢
    grind
  | script cell =>
    exact leavesSound_made (leavesSound_newScript h ⟨hcompartment _ rfl, hrefs⟩)
  | xml c kind =>
    exact leavesSound_made (h.push_xml ⟨hcompartment c rfl, by simp [XmlCell.references]⟩)
  | xmlName node name =>
    refine leavesSound_changeXml h hcall node (fun _ => rfl) fun cell thing hthing => ?_
    simp only [XmlCell.references, references, List.mem_append, List.mem_cons] at hthing ⊢
    grind
  | xmlValue node value =>
    refine leavesSound_changeXml h hcall node (fun _ => rfl) fun cell thing hthing => ?_
    simp only [XmlCell.references, references, List.mem_append, List.mem_cons] at hthing ⊢
    grind
  | xmlObject node reflected =>
    refine leavesSound_changeXml h hcall node (fun _ => rfl) fun cell thing hthing => ?_
    simp only [XmlCell.references, references, List.mem_append, List.mem_cons] at hthing ⊢
    grind
  | xmlKid node kid =>
    refine leavesSound_done (leavesSound_link h (hrefs _ (by simp [references]))
      (hrefs _ (by simp [references])) (fun _ => rfl) fun cell thing hthing => ?_)
    simp only [XmlCell.references, Array.toList_push, List.map_append, List.map_cons,
      List.map_nil, List.mem_append, List.mem_singleton] at hthing ⊢
    grind
  | xmlAttr node attr =>
    refine leavesSound_done (leavesSound_link h (hrefs _ (by simp [references]))
      (hrefs _ (by simp [references])) (fun _ => rfl) fun cell thing hthing => ?_)
    simp only [XmlCell.references, Array.toList_push, List.map_append, List.map_cons,
      List.map_nil, List.mem_append, List.mem_singleton] at hthing ⊢
    grind

end Construction

namespace Heap

theorem sound_empty : Heap.empty.graph.Sound where
  atoms := by decide
  objects := by simp [empty]
  strings := by simp [empty]
  scripts := by simp [empty]
  shapes := by simp [empty]
  baseShapes := by simp [empty]
  typeObjects := by simp [empty]
  xmlNodes := by simp [empty]

/-- What holds wherever the call may stop holds after it. -/
theorem after_of_yields {heap : Heap} {call : Construction} {good : Heap → Prop}
    (h : Yields call.perform heap (fun _ => good) fun _ => good) : good (heap.after call) := by
  unfold Yields at h
  unfold after EStateM.run
  cases hrun : call.perform heap with
  | ok product next => simpa only [hrun] using h
  | error fault next => simpa only [hrun] using h

theorem sound_after {heap : Heap} (h : heap.graph.Sound) {call : Construction}
    (hcall : call.KnownOn heap.graph) : (heap.after call).graph.Sound :=
  after_of_yields (call.leavesSound_perform h hcall)

/-- Whatever a grounded history builds is sound. -/
theorem sound_built {history : List Construction} (h : Grounded history) :
    (built history).graph.Sound := by
  induction history using List.reverseRecOn with
  | nil => exact sound_empty
  | append_singleton before call ih =>
    have hcall : call.KnownOn (built before).graph := h before call [] rfl
    simp only [built, List.foldl_append, List.foldl_cons, List.foldl_nil]
    exact sound_after (ih h.init) hcall

end Heap

end MarkPhase
