import MarkPhase.Proofs.Sessions

/-!
Graphs with more things behind those of another. What is found on the smaller graph is found
on the larger one as well. So an enumeration over the smaller one is that over the larger one,
unless it breaks off, and what a tracer is shown of a thing is shown of it there too.
-/

namespace MarkPhase

/-! Visits that go on where others break off. -/

/-- The visits of the first list are those of the second, or they break off on the way. -/
inductive Visit.UpTo : List Visit → List Visit → Prop
  | nil : UpTo [] []
  | cons (visit : Visit) {visits visits' : List Visit} : UpTo visits visits' →
      UpTo (visit :: visits) (visit :: visits')
  | broken (fault : Fault) (visits : List Visit) : UpTo [.broken fault] visits

namespace Visit.UpTo

variable {visits visits' : List Visit}

protected theorem refl : (visits : List Visit) → UpTo visits visits
  | [] => .nil
  | visit :: visits => .cons visit (UpTo.refl visits)

theorem append (h : UpTo visits visits') : (before : List Visit) →
    UpTo (before ++ visits) (before ++ visits')
  | [] => h
  | visit :: before => .cons visit (h.append before)

/-- Nothing is reported but what the second list reports as well. -/
theorem things_isPrefix (h : UpTo visits visits') :
    visits.filterMap Visit.thing? <+: visits'.filterMap Visit.thing? := by
  induction h with
  | nil => exact List.prefix_rfl
  | cons visit _ ih =>
    simp only [List.filterMap_cons]
    split
    · exact ih
    · exact List.prefix_cons_inj _ |>.mpr ih
  | broken fault visits => exact List.nil_prefix

end Visit.UpTo

/-! What a tracer has received. -/

namespace TraceM

/-- The edges received in the end, whether or not there has been a fault. -/
def edgesAfter (m : TraceM Unit) (s : Tracer) : List Edge :=
  match m s with
  | .ok _ t => t.edges.toList
  | .error _ t => t.edges.toList

/-- The tracer after the report of a thing. -/
def received (thing : Thing) (s : Tracer) : Tracer :=
  { s with edges := s.edges.push ⟨thing, s.context.label⟩, context.label := .blank }

theorem edgesAfter_stopped {g : Graph} {thing : Thing} {fault : Fault}
    (hfault : g.objection? thing = some fault) (visits : List Visit) (s : Tracer) :
    edgesAfter ((Visit.report thing :: visits).forM (visit g)) s = s.edges.toList := by
  change edgesAfter (visit g (.report thing) >>= fun _ => visits.forM (visit g)) s = _
  simp only [visit, hfault]
  rfl

theorem edgesAfter_received {g : Graph} {thing : Thing} (hfree : g.objection? thing = none)
    (visits : List Visit) (s : Tracer) :
    edgesAfter ((Visit.report thing :: visits).forM (visit g)) s =
      edgesAfter (visits.forM (visit g)) (received thing s) := by
  change edgesAfter (visit g (.report thing) >>= fun _ => visits.forM (visit g)) s = _
  simp only [visit, hfree]
  rfl

/-- An edge that was received is kept. -/
theorem isPrefix_edgesAfter (g : Graph) (visits : List Visit) (s : Tracer) :
    s.edges.toList <+: edgesAfter (visits.forM (visit g)) s := by
  induction visits generalizing s with
  | nil => exact List.prefix_rfl
  | cons first visits ih =>
    cases first with
    | setLabel label => exact ih { s with context.label := label }
    | keepFilename name => exact ih s
    | broken fault => exact List.prefix_rfl
    | report thing =>
      cases hfault : g.objection? thing with
      | some fault => rw [edgesAfter_stopped hfault]
      | none =>
        rw [edgesAfter_received hfault]
        refine List.IsPrefix.trans ?_ (ih (received thing s))
        simp [received]

end TraceM

namespace Graph

/-- The other graph has the things of the one, and perhaps more behind them. -/
structure Extends (g g' : Graph) : Prop where
  compartments : g.compartments.toList <+: g'.compartments.toList
  objects : g.objects.toList <+: g'.objects.toList
  strings : g.strings.toList <+: g'.strings.toList
  scripts : g.scripts.toList <+: g'.scripts.toList
  shapes : g.shapes.toList <+: g'.shapes.toList
  baseShapes : g.baseShapes.toList <+: g'.baseShapes.toList
  typeObjects : g.typeObjects.toList <+: g'.typeObjects.toList
  xmlNodes : g.xmlNodes.toList <+: g'.xmlNodes.toList

private theorem getElem?_of_isPrefix {α : Type} {xs ys : Array α} (h : xs.toList <+: ys.toList)
    {index : Nat} {x : α} (hx : xs[index]? = some x) : ys[index]? = some x := by
  obtain ⟨hlt, rfl⟩ := List.getElem?_eq_some_iff.mp (Array.getElem?_toList ▸ hx)
  rw [← Array.getElem?_toList]
  exact List.getElem?_eq_some_iff.mpr ⟨Nat.lt_of_lt_of_le hlt h.length_le, (h.getElem hlt).symm⟩

namespace Extends

variable {g g' : Graph} (h : g.Extends g')

include h

theorem object? (id : ObjectId) (cell : ObjectCell) (hid : g.object? id = some cell) :
    g'.object? id = some cell :=
  getElem?_of_isPrefix h.objects hid

theorem string? (id : StringId) (cell : StringCell) (hid : g.string? id = some cell) :
    g'.string? id = some cell :=
  getElem?_of_isPrefix h.strings hid

theorem script? (id : ScriptId) (cell : ScriptCell) (hid : g.script? id = some cell) :
    g'.script? id = some cell :=
  getElem?_of_isPrefix h.scripts hid

theorem shape? (id : ShapeId) (cell : ShapeCell) (hid : g.shape? id = some cell) :
    g'.shape? id = some cell :=
  getElem?_of_isPrefix h.shapes hid

theorem baseShape? (id : BaseShapeId) (cell : BaseShapeCell)
    (hid : g.baseShape? id = some cell) : g'.baseShape? id = some cell :=
  getElem?_of_isPrefix h.baseShapes hid

theorem typeObject? (id : TypeObjectId) (cell : TypeCell)
    (hid : g.typeObject? id = some cell) : g'.typeObject? id = some cell :=
  getElem?_of_isPrefix h.typeObjects hid

theorem xml? (id : XmlId) (cell : XmlCell) (hid : g.xml? id = some cell) :
    g'.xml? id = some cell :=
  getElem?_of_isPrefix h.xmlNodes hid

theorem classOf? (object : ObjectCell) (objectClass : Class)
    (hclass : g.classOf? object = some objectClass) : g'.classOf? object = some objectClass := by
  obtain ⟨shape, hshape, hrest⟩ := Option.bind_eq_some_iff.mp hclass
  obtain ⟨base, hbase, heq⟩ := Option.bind_eq_some_iff.mp hrest
  exact Option.bind_eq_some_iff.mpr ⟨shape, h.shape? _ _ hshape,
    Option.bind_eq_some_iff.mpr ⟨base, h.baseShape? _ _ hbase, heq⟩⟩

theorem compartmentOf? (thing : Thing) (compartment : CompartmentId)
    (hthing : g.compartmentOf? thing = some compartment) :
    g'.compartmentOf? thing = some compartment := by
  obtain ⟨kind, index⟩ := thing
  have hcell : ∀ {α : Type} {xs ys : Array α} {owner : α → CompartmentId},
      xs.toList <+: ys.toList → xs[index]?.map owner = some compartment →
      ys[index]?.map owner = some compartment := by
    intro α xs ys owner hprefix hfound
    obtain ⟨cell, hcell, howner⟩ := Option.map_eq_some_iff.mp hfound
    exact Option.map_eq_some_iff.mpr ⟨cell, getElem?_of_isPrefix hprefix hcell, howner⟩
  cases kind with
  | object => exact hcell h.objects hthing
  | string => exact hcell h.strings hthing
  | script => exact hcell h.scripts hthing
  | shape => exact hcell h.shapes hthing
  | baseShape => exact hcell h.baseShapes hthing
  | typeObject => exact hcell h.typeObjects hthing
  | xml => exact hcell h.xmlNodes hthing

/-- What no marking call objects to on the one graph it does not object to on the other. -/
theorem objection? {thing : Thing} (hthing : g.objection? thing = none) :
    g'.objection? thing = none := by
  unfold Graph.objection? at hthing ⊢
  cases hfound : g.compartmentOf? thing with
  | none => simp [hfound] at hthing
  | some compartment =>
    by_cases hknown : g.hasCompartment compartment = true
    · have hlt : compartment.index < g.compartments.size := of_decide_eq_true hknown
      have hknown' : g'.hasCompartment compartment = true :=
        decide_eq_true (Nat.lt_of_lt_of_le hlt h.compartments.length_le)
      simp only [h.compartmentOf? thing compartment hfound, if_pos hknown']
    · simp [hfound, hknown] at hthing

theorem allowed {filter : Option CompartmentId} {thing : Thing} (hthing : g.Allowed filter thing) :
    g'.Allowed filter thing := by
  obtain ⟨compartment, hcompartment, hallows⟩ := hthing
  exact ⟨compartment, h.compartmentOf? thing compartment hcompartment, hallows⟩

theorem thingCount_le : g.thingCount ≤ g'.thingCount := by
  have hobjects := h.objects.length_le
  have hstrings := h.strings.length_le
  have hscripts := h.scripts.length_le
  have hshapes := h.shapes.length_le
  have hbases := h.baseShapes.length_le
  have htypes := h.typeObjects.length_le
  have hnodes := h.xmlNodes.length_le
  simp only [thingCount, ← Array.length_toList]
  omega

/-! Visits on both graphs. -/

theorem upTo_objectVisits (id : ObjectId) :
    Visit.UpTo (objectVisits g id) (objectVisits g' id) := by
  unfold objectVisits
  cases hid : g.object? id with
  | none => exact .broken ..
  | some object =>
    rw [h.object? id object hid]
    refine Visit.UpTo.append ?_ _
    cases hclass : g.classOf? object with
    | none => exact .broken ..
    | some objectClass =>
      rw [h.classOf? object objectClass hclass]
      exact .refl _

theorem upTo_stringVisits (id : StringId) :
    Visit.UpTo (stringVisits g id) (stringVisits g' id) := by
  unfold stringVisits
  cases hid : g.string? id with
  | none => exact .broken ..
  | some string =>
    rw [h.string? id string hid]
    exact .refl _

theorem upTo_scriptVisits (isMarker : Bool) (id : ScriptId) :
    Visit.UpTo (scriptVisits g isMarker id) (scriptVisits g' isMarker id) := by
  unfold scriptVisits
  cases hid : g.script? id with
  | none => exact .broken ..
  | some script =>
    rw [h.script? id script hid]
    exact .refl _

theorem upTo_shapeVisits (id : ShapeId) : Visit.UpTo (shapeVisits g id) (shapeVisits g' id) := by
  unfold shapeVisits
  cases hid : g.shape? id with
  | none => exact .broken ..
  | some shape =>
    rw [h.shape? id shape hid]
    exact .refl _

theorem upTo_baseShapeVisits (id : BaseShapeId) :
    Visit.UpTo (baseShapeVisits g id) (baseShapeVisits g' id) := by
  unfold baseShapeVisits
  cases hid : g.baseShape? id with
  | none => exact .broken ..
  | some base =>
    rw [h.baseShape? id base hid]
    exact .refl _

theorem upTo_typeObjectVisits (isMarker : Bool) (id : TypeObjectId) :
    Visit.UpTo (typeObjectVisits g isMarker id) (typeObjectVisits g' isMarker id) := by
  unfold typeObjectVisits
  cases hid : g.typeObject? id with
  | none => exact .broken ..
  | some type =>
    rw [h.typeObject? id type hid]
    exact .refl _

theorem upTo_xmlVisits (id : XmlId) : Visit.UpTo (xmlVisits g id) (xmlVisits g' id) := by
  unfold xmlVisits
  cases hid : g.xml? id with
  | none => exact .broken ..
  | some node =>
    rw [h.xml? id node hid]
    exact .refl _

theorem upTo_childVisits (isMarker : Bool) (thing : Thing) :
    Visit.UpTo (childVisits g isMarker thing) (childVisits g' isMarker thing) := by
  obtain ⟨kind, index⟩ := thing
  cases kind with
  | object => exact h.upTo_objectVisits _
  | string => exact h.upTo_stringVisits _
  | script => exact h.upTo_scriptVisits isMarker _
  | shape => exact h.upTo_shapeVisits _
  | baseShape => exact h.upTo_baseShapeVisits _
  | typeObject => exact h.upTo_typeObjectVisits isMarker _
  | xml => exact h.upTo_xmlVisits _

/-- A walk along a lineage may as well be allowed more steps. -/
theorem upTo_lineageFrom {steps steps' : Nat} (hle : steps ≤ steps') (lastParent : Option ObjectId)
    (next : Option ShapeId) :
    Visit.UpTo (lineageFrom g steps lastParent next) (lineageFrom g' steps' lastParent next) := by
  induction steps generalizing steps' lastParent next with
  | zero =>
    cases next with
    | none =>
      cases steps' <;> exact .nil
    | some id => exact .broken ..
  | succ steps ih =>
    obtain ⟨rest, rfl⟩ := Nat.exists_eq_add_of_le' hle
    cases next with
    | none => exact .nil
    | some id =>
      rw [← Nat.add_assoc, lineageFrom, lineageFrom]
      cases hid : g.shape? id with
      | none => exact .broken ..
      | some shape =>
        simp only [h.shape? id shape hid]
        cases hbase : g.baseShape? shape.base with
        | none => exact .broken ..
        | some base =>
          simp only [h.baseShape? _ base hbase]
          exact (ih (Nat.le_add_left ..) _ _).append _

theorem upTo_visits (isMarker : Bool) (context : Context) (call : MarkingCall) :
    Visit.UpTo (call.visits g isMarker context) (call.visits g' isMarker context) := by
  cases call with
  | children one => exact h.upTo_childVisits isMarker one
  | lineage shape =>
    exact h.upTo_lineageFrom (Nat.succ_le_succ h.shapes.length_le) _ _
  | wrapped name held =>
    simp only [MarkingCall.visits]
    cases held.thing? with
    | none => exact .nil
    | some one =>
      simp only [MarkingCall.wrappedVisits]
      cases context.compartment with
      | none => exact .refl _
      | some current =>
        cases hone : g.compartmentOf? one with
        | none => exact .broken ..
        | some compartment =>
          simp only [h.compartmentOf? one compartment hone]
          exact .refl _
  | _ => exact .refl _

/-! Tracers on both graphs. -/

/-- A tracer that stops at a fault has received no more than one that goes on. -/
theorem edgesAfter_isPrefix {visits visits' : List Visit} (hvisits : Visit.UpTo visits visits')
    (s : Tracer) :
    TraceM.edgesAfter (visits.forM (TraceM.visit g)) s <+:
      TraceM.edgesAfter (visits'.forM (TraceM.visit g')) s := by
  induction hvisits generalizing s with
  | nil => exact List.prefix_rfl
  | @cons visit visits visits' _ ih =>
    cases visit with
    | setLabel label => exact ih _
    | keepFilename name => exact ih s
    | broken fault => exact List.prefix_rfl
    | report thing =>
      cases hfault : g.objection? thing with
      | some fault =>
        rw [TraceM.edgesAfter_stopped hfault]
        exact TraceM.isPrefix_edgesAfter g' _ s
      | none =>
        rw [TraceM.edgesAfter_received hfault, TraceM.edgesAfter_received (h.objection? hfault)]
        exact ih _
  | broken fault visits => exact TraceM.isPrefix_edgesAfter g' visits s

/-! Children on both graphs. -/

/-- Steps report no more roots on the one graph than on the other. -/
theorem roots_subset (filter : Option CompartmentId) (steps : List Step) :
    steps.flatMap (Step.roots g filter) ⊆ steps.flatMap (Step.roots g' filter) := by
  intro root hroot
  obtain ⟨step, hstep, hmem⟩ := List.mem_flatMap.mp hroot
  refine List.mem_flatMap.mpr ⟨step, hstep, ?_⟩
  cases step with
  | call request => exact (h.upTo_visits true _ request).things_isPrefix.subset hmem
  | slice budget => exact hmem
  | delayedSlice budget => exact hmem

/-- A tracer that is shown an edge on the one graph is shown it on the other. -/
theorem shownEdges_isPrefix (thing : Thing) : g.shownEdges thing <+: g'.shownEdges thing :=
  h.edgesAfter_isPrefix (h.upTo_childVisits false thing) {}

theorem child {parent child : Thing} (hchild : g.Child parent child) : g'.Child parent child := by
  obtain ⟨edge, hedge, hrest⟩ := hchild
  exact ⟨edge, (h.shownEdges_isPrefix parent).subset hedge, hrest⟩

theorem reachable {filter : Option CompartmentId} {roots more : List Thing} {thing : Thing}
    (hroots : roots ⊆ more) (hthing : g.Reachable filter roots thing) :
    g'.Reachable filter more thing := by
  induction hthing with
  | root hroot hallowed => exact .root (hroots hroot) (h.allowed hallowed)
  | child _ hchild hallowed ih => exact ih.child (h.child hchild) (h.allowed hallowed)

end Extends

end Graph

end MarkPhase
