import MarkPhase.Proofs.Building
import MarkPhase.Proofs.Locations

/-!
What the labels of children tell. An edge that a generic tracer receives starts at a place
where the thing is held, and its label is that of the place. So a slot or an index in a label
can be looked up, and there the thing is found, whatever was skipped before it.
-/

namespace MarkPhase

namespace Graph

variable {g : Graph}

/-- What the label of an edge tells is true: it is not blank, a slot is a slot of the owner that
holds the thing, and an index is a position of the named table that holds it. -/
structure Vouches (g : Graph) {kind : Kind} (owner : Ref kind) (edge : Edge) : Prop where
  labelled : edge.label ≠ .blank
  slot : ∀ object index, edge.label = .slot object index → object.thing = owner.thing ∧
    ∃ value, g.readSlot object index = .ok value ∧ value.thing? = some edge.thing
  index : ∀ name index, edge.label = .indexed name index →
    (g.table owner name)[index]? = some (some edge.thing)

private theorem getElem?_of_bind {α : Type} {xs : List α} {f : α → Option Thing} {index : Nat}
    {thing : Thing} (h : xs[index]?.bind f = some thing) :
    (xs.map f)[index]? = some (some thing) := by
  rw [List.getElem?_map]
  cases hx : xs[index]? <;> simp_all

private theorem getElem?_of_join {kind : Kind} {refs : List (Option (Ref kind))} {index : Nat}
    {thing : Thing} (h : refs[index]?.join.map Ref.thing = some thing) :
    (refs.map (·.map Ref.thing))[index]? = some (some thing) := by
  rw [List.getElem?_map]
  cases hx : refs[index]? <;> simp_all

private theorem getElem?_of_map {kind : Kind} {refs : Array (Ref kind)} {index : Nat}
    {thing : Thing} (h : refs[index]?.map Ref.thing = some thing) :
    (refs.toList.map fun ref => some ref.thing)[index]? = some (some thing) := by
  rw [List.getElem?_map, Array.getElem?_toList]
  cases hx : refs[index]? <;> simp_all

section Held

variable {thing : Thing}

theorem exists_object_of_held {owner : ObjectId} {location : Location .object}
    (h : g.heldAt owner location = some thing) : ∃ object objectClass,
      g.object? owner = some object ∧ object.heldAt objectClass location = some thing := by
  obtain ⟨object, hid, h⟩ := Option.bind_eq_some_iff.mp h
  obtain ⟨objectClass, -, h⟩ := Option.bind_eq_some_iff.mp h
  exact ⟨object, objectClass, hid, h⟩

theorem slot_of_held {owner : ObjectId} {index : Nat}
    (h : g.heldAt owner (.slot index) = some thing) :
    ∃ value, g.readSlot owner index = .ok value ∧ value.thing? = some thing := by
  obtain ⟨object, objectClass, hid, h⟩ := exists_object_of_held h
  simp only [ObjectCell.heldAt, Option.ite_none_right_eq_some] at h
  exact ⟨object.slot index, by simp [readSlot, hid, h.1.2], h.2⟩

/-- A place with an index is a position of a table. -/
theorem table_of_held {kind : Kind} {owner : Ref kind} {location : Location kind} {name : String}
    {index : Nat} (h : g.heldAt owner location = some thing)
    (hlabel : location.label owner = .indexed name index) :
    (g.table owner name)[index]? = some (some thing) := by
  cases location with
  | element position =>
    cases hlabel
    obtain ⟨object, objectClass, hid, h⟩ := exists_object_of_held h
    simp only [ObjectCell.heldAt, Option.ite_none_right_eq_some, ← Array.getElem?_toList] at h
    simpa only [table, hid] using getElem?_of_bind h.2
  | literal position =>
    cases hlabel
    obtain ⟨script, hid, h⟩ := Option.bind_eq_some_iff.mp h
    simpa only [table, hid] using getElem?_of_join h
  | regexp position =>
    cases hlabel
    obtain ⟨script, hid, h⟩ := Option.bind_eq_some_iff.mp h
    simpa only [table, hid] using getElem?_of_join h
  | const position =>
    cases hlabel
    obtain ⟨script, hid, h⟩ := Option.bind_eq_some_iff.mp h
    simpa only [table, hid] using getElem?_of_bind h
  | kid position =>
    cases hlabel
    obtain ⟨node, hid, h⟩ := Option.bind_eq_some_iff.mp h
    simpa only [table, hid] using getElem?_of_map h
  | attr position =>
    cases hlabel
    obtain ⟨node, hid, h⟩ := Option.bind_eq_some_iff.mp h
    simpa only [table, hid] using getElem?_of_map h
  | _ => cases hlabel

/-- The label of a place that holds a thing tells where it is held. -/
theorem vouches_of_held {kind : Kind} {owner : Ref kind} {location : Location kind}
    (h : g.heldAt owner location = some thing) :
    g.Vouches owner ⟨thing, location.label owner⟩ := by
  refine ⟨location.label_ne_blank owner, fun object index hlabel => ?_,
    fun name index hlabel => table_of_held h hlabel⟩
  cases location with
  | slot position =>
    cases hlabel
    exact ⟨rfl, slot_of_held h⟩
  | _ => cases hlabel

end Held

/-- The edges start one by one at the places that count and hold something, each of which is
met once, and what their labels tell is true. -/
structure Locates (g : Graph) {kind : Kind} (owner : Ref kind) (locations : List (Location kind))
    (edges : List Edge) : Prop where
  nodup : locations.Nodup
  complete : ∀ location, location ∈ locations ↔ ∃ thing, g.heldAt owner location = some thing
  matching : List.Forall₂ (fun location edge =>
    g.heldAt owner location = some edge.thing ∧ edge.label = location.label owner) locations edges
  vouched : ∀ edge ∈ edges, g.Vouches owner edge

/-- Of all places in a list without repetitions those count that hold something. -/
theorem locates_of_places {kind : Kind} {owner : Ref kind} {places : List (Location kind)}
    (hnodup : places.Nodup)
    (hplaces : ∀ location thing, g.heldAt owner location = some thing → location ∈ places) :
    g.Locates owner (places.filter fun location => (g.heldAt owner location).isSome)
      (edgesFrom owner (g.heldAt owner) places) := by
  refine ⟨hnodup.filter _, fun location => ?_, ?_, fun edge hedge => ?_⟩
  · rw [List.mem_filter, Option.isSome_iff_exists]
    exact ⟨fun hmem => hmem.2, fun ⟨thing, hheld⟩ => ⟨hplaces location thing hheld, thing, hheld⟩⟩
  · clear hnodup hplaces
    induction places with
    | nil => exact .nil
    | cons location places ih =>
      rw [edgesFrom, List.filterMap_cons]
      cases hheld : g.heldAt owner location with
      | none =>
        rw [List.filter_cons_of_neg (by simp [hheld])]
        exact ih
      | some thing =>
        rw [List.filter_cons_of_pos (by simp [hheld])]
        exact .cons ⟨hheld, rfl⟩ ih
  · obtain ⟨location, -, hstart⟩ := List.mem_filterMap.mp hedge
    obtain ⟨thing, hheld, rfl⟩ := Option.map_eq_some_iff.mp hstart
    exact vouches_of_held hheld

/-- Nothing stops a tracer that is asked for the children of a thing that is there. -/
theorem Sound.not_stops (h : g.Sound) {parent : Thing} (hparent : g.contains parent = true)
    {visit : Visit} (hmem : visit ∈ childVisits g false parent) (fault : Fault) :
    ¬ visit.Stops g fault := by
  cases visit with
  | report thing => simp [Visit.Stops, h.objection?_of_report hmem]
  | broken given => exact absurd hmem (h.broken_notMem hparent false given)
  | setLabel _ => exact id
  | keepFilename _ => exact id

end Graph

/-- A tracer that is asked for the children of a thing, whatever label it has at hand, receives
one edge for every place of the thing that counts and holds something, each under the label of
its own place, and what a label tells is true. -/
theorem Heap.children_located {history : List Construction} (h : Grounded history) {kind : Kind}
    {owner : Ref kind} (howner : (built history).graph.contains owner.thing = true)
    (tracer : Tracer) :
    ∃ final locations edges,
      TraceM.make (built history).graph (.children owner.thing) tracer = .ok () final ∧
      final.edges.toList = tracer.edges.toList ++ edges ∧
      (built history).graph.Locates owner locations edges := by
  have hsound := sound_built h
  obtain ⟨places, hshows, hnodup, hplaces⟩ := hsound.exists_places howner
  obtain ⟨_, final, hmake, rfl⟩ := (TraceM.yields_forM_visit (g := (built history).graph)
    (childVisits (built history).graph false owner.thing) tracer).exists_ok
      fun fault _ ⟨visit, hmem, hstop⟩ => hsound.not_stops howner hmem fault hstop
  refine ⟨_, _, _, hmake, ?_, Graph.locates_of_places hnodup hplaces⟩
  rw [Tracer.shown, hshows]

/-- An array whose elements are a number and an object, before a tracer that has been left with
the label of another edge. -/
theorem Heap.children_located_sample :
    let history : List Construction := [.baseShape .atoms (some .array) none none none,
      .shape .atoms ⟨0⟩ .void none, .typeObject .atoms [] none none none,
      .object .atoms ⟨0⟩ ⟨0⟩ 0, .element ⟨0⟩ (.int32 7), .element ⟨0⟩ (.object ⟨0⟩)]
    let owner : ObjectId := ⟨0⟩
    let tracer : Tracer := { context := { label := .indexed "consts" 3 } }
    Grounded history ∧ (built history).graph.contains owner.thing = true ∧
      ∃ final locations edges,
        TraceM.make (built history).graph (.children owner.thing) tracer = .ok () final ∧
        final.edges.toList = tracer.edges.toList ++ edges ∧
        (built history).graph.Locates owner locations edges := by
  intro history owner tracer
  have hgrounded : Grounded history := by decide +kernel
  have howner : (built history).graph.contains owner.thing = true := by decide +kernel
  exact ⟨hgrounded, howner, children_located hgrounded howner tracer⟩

end MarkPhase
