import MarkPhase.Proofs.Outcomes
import MarkPhase.Proofs.WellFormed
import MarkPhase.Tracing

/-!
The edges that a generic tracer is shown, and the child relation they make. In a
list of visits each report follows the label of its own edge, so the edges can be
read off the list. A type object shows a generic tracer its object-named
properties as well; these are no children for the marker, and with that exception
the marker's visits report exactly the children.
-/

namespace MarkPhase

/-- The edges a generic tracer has received once it was shown the children of a thing. -/
def Graph.shownEdges (g : Graph) (thing : Thing) : List Edge :=
  match TraceM.make g (.children thing) {} with
  | .ok _ tracer => tracer.edges.toList
  | .error _ tracer => tracer.edges.toList

/-- The edge leads from a type object to an object that names one of its properties. -/
def Edge.NamesProperty (edge : Edge) : Prop :=
  edge.label = .named "type_prop" ∧ edge.thing.kind = .object

instance (edge : Edge) : Decidable edge.NamesProperty :=
  inferInstanceAs (Decidable (_ ∧ _))

/-- A generic tracer is shown an edge from `parent` to `child`, and not merely
because `child` is an object that names a property of a type. -/
def Graph.Child (g : Graph) (parent child : Thing) : Prop :=
  ∃ edge ∈ g.shownEdges parent, edge.thing = child ∧ ¬ edge.NamesProperty

/-! Reports in the lists of visits. -/

section Reports

variable {child : Thing}

@[simp]
theorem mem_filterMap_thing? {visits : List Visit} :
    child ∈ visits.filterMap Visit.thing? ↔ .report child ∈ visits := by
  rw [List.mem_filterMap]
  constructor
  · intro hgiven
    obtain ⟨visit, hmem, hthing⟩ := hgiven
    cases visit with
    | report other =>
      cases hthing
      exact hmem
    | _ => cases hthing
  · exact fun hmem => ⟨_, hmem, rfl⟩

@[simp]
theorem things_edgeVisits (label : Label) (thing : Option Thing) :
    (edgeVisits label thing).filterMap Visit.thing? = thing.toList := by
  cases thing <;> rfl

/-- Edges shown one after the other. -/
theorem things_flatMap {α : Type} (xs : List α) (label : α → Label) (thing : α → Option Thing) :
    (xs.flatMap fun x => edgeVisits (label x) (thing x)).filterMap Visit.thing? =
      xs.filterMap thing := by
  induction xs with
  | nil => rfl
  | cons x xs ih =>
    rw [List.flatMap_cons, List.filterMap_append, ih, things_edgeVisits, List.filterMap_cons]
    cases thing x <;> rfl

@[simp]
theorem report_mem_edgeVisits {label : Label} {thing : Option Thing} :
    .report child ∈ edgeVisits label thing ↔ thing = some child := by
  cases thing with
  | none => simp [edgeVisits]
  | some thing => simp [edgeVisits, eq_comm]

@[simp]
theorem report_mem_fieldVisits {kind : Kind} {name : String} {ref : Option (Ref kind)} :
    .report child ∈ fieldVisits name ref ↔ child ∈ refThings ref := by
  cases ref with
  | none => simp [fieldVisits]
  | some ref => simp [fieldVisits]

@[simp]
theorem report_mem_tableVisits {name : String} {things : List (Option Thing)} :
    .report child ∈ tableVisits name things ↔ some child ∈ things := by
  simp only [tableVisits, List.mem_flatMap, Prod.exists, List.mem_zipIdx_iff_getElem?]
  constructor
  · intro hgiven
    obtain ⟨thing, index, hget, hmem⟩ := hgiven
    cases thing with
    | none => simp at hmem
    | some thing =>
      obtain rfl : thing = child := by simpa using hmem
      exact List.mem_of_getElem? hget
  · intro hmem
    obtain ⟨index, hget⟩ := List.getElem?_of_mem hmem
    exact ⟨some child, index, hget, by simp⟩

@[simp]
theorem report_mem_fullTableVisits {name : String} {things : List (Option Thing)} :
    .report child ∈ fullTableVisits name things ↔ some child ∈ things := by
  simp only [fullTableVisits, List.mem_flatMap, Prod.exists, List.mem_zipIdx_iff_getElem?,
    report_mem_edgeVisits]
  constructor
  · intro hgiven
    obtain ⟨thing, index, hget, rfl⟩ := hgiven
    exact List.mem_of_getElem? hget
  · intro hmem
    obtain ⟨index, hget⟩ := List.getElem?_of_mem hmem
    exact ⟨some child, index, hget, rfl⟩

@[simp]
theorem report_mem_valueTableVisits {name : String} {values : List Value} :
    .report child ∈ valueTableVisits name values ↔ ∃ value ∈ values, value.thing? = some child := by
  simp [valueTableVisits]

theorem report_mem_slotVisits {id : ObjectId} {object : ObjectCell} :
    .report child ∈ slotVisits id object ↔
      ∃ index < object.span, (object.slot index).thing? = some child := by
  simp [slotVisits]

end Reports

/-! Lists in which every report follows the label of its own edge. -/

/-- Every report is that of an edge whose label is one of `labels`. -/
inductive Labelled (labels : Label → Prop) : List Visit → Prop
  | nil : Labelled labels []
  | edge (label : Label) (thing : Option Thing) {rest : List Visit} :
      labels label → Labelled labels rest → Labelled labels (edgeVisits label thing ++ rest)
  | filename (name : String) {rest : List Visit} :
      Labelled labels rest → Labelled labels (.keepFilename name :: rest)

namespace Labelled

variable {labels : Label → Prop} {visits others : List Visit}

theorem append (h : Labelled labels visits) (hothers : Labelled labels others) :
    Labelled labels (visits ++ others) := by
  induction h with
  | nil => exact hothers
  | edge label thing hlabel _ ih =>
    rw [List.append_assoc]
    exact ih.edge label thing hlabel
  | filename name _ ih => exact ih.filename name

theorem edgeVisits {label : Label} (hlabel : labels label) (thing : Option Thing) :
    Labelled labels (edgeVisits label thing) := by
  simpa only [List.append_nil] using Labelled.nil.edge label thing hlabel

theorem flatMap {α : Type} {xs : List α} {f : α → List Visit}
    (h : ∀ x ∈ xs, Labelled labels (f x)) : Labelled labels (xs.flatMap f) := by
  induction xs with
  | nil => exact Labelled.nil
  | cons x xs ih =>
    rw [List.flatMap_cons]
    exact (h x (List.mem_cons_self ..)).append
      (ih fun y hy => h y (List.mem_cons_of_mem _ hy))

theorem fieldVisits {kind : Kind} {name : String} (hlabel : labels (.named name))
    (ref : Option (Ref kind)) : Labelled labels (fieldVisits name ref) := by
  cases ref with
  | none => exact Labelled.nil
  | some ref => exact edgeVisits hlabel _

theorem tableVisits {name : String} (hlabel : ∀ index, labels (.indexed name index))
    (things : List (Option Thing)) : Labelled labels (tableVisits name things) := by
  refine flatMap fun entry _ => ?_
  obtain ⟨thing, index⟩ := entry
  cases thing with
  | none => exact Labelled.nil
  | some thing => exact edgeVisits (hlabel index) _

theorem valueTableVisits {name : String} (hlabel : ∀ index, labels (.indexed name index))
    (values : List Value) : Labelled labels (valueTableVisits name values) :=
  flatMap fun entry _ => edgeVisits (hlabel entry.2) _

/-- The enumeration goes on to the end. -/
theorem broken_notMem (h : Labelled labels visits) (fault : Fault) : .broken fault ∉ visits := by
  induction h with
  | nil => exact List.not_mem_nil
  | edge label thing _ _ ih =>
    rw [List.mem_append, not_or]
    refine ⟨?_, ih⟩
    cases thing <;> simp [MarkPhase.edgeVisits]
  | filename name _ ih => exact List.not_mem_cons_of_ne_of_not_mem nofun ih

/-- A tracer shown such a list receives an edge for every report, under a label of
the list. -/
theorem yields_edges {g : Graph} (h : Labelled labels visits)
    (hfree : ∀ thing, .report thing ∈ visits → g.objection? thing = none) (s : Tracer) :
    Yields (visits.forM (TraceM.visit g)) s
      (fun _ t => ∃ new, t.edges.toList = s.edges.toList ++ new ∧
        (∀ edge ∈ new, labels edge.label) ∧ new.map Edge.thing = visits.filterMap Visit.thing?)
      fun _ _ => False := by
  induction h generalizing s with
  | nil => exact ⟨[], by simp⟩
  | @edge label thing rest hlabel hrest ih =>
    have hfreeRest : ∀ other, .report other ∈ rest → g.objection? other = none :=
      fun other hmem => hfree other (List.mem_append_right _ hmem)
    cases thing with
    | none =>
      change Yields (TraceM.setLabel label >>= fun _ => rest.forM (TraceM.visit g)) s _ _
      simp only [TraceM.setLabel, yields_bind, yields_modify]
      exact ih hfreeRest _
    | some thing =>
      have hthing : g.objection? thing = none := hfree thing (by simp)
      change Yields (TraceM.setLabel label >>= fun _ => TraceM.visit g (.report thing) >>=
        fun _ => rest.forM (TraceM.visit g)) s _ _
      simp only [TraceM.setLabel, TraceM.visit, TraceM.receive, hthing, yields_bind,
        yields_modify]
      apply (ih hfreeRest _).imp
      intro _ t hend
      obtain ⟨new, hedges, hnew, hthings⟩ := hend
      refine ⟨⟨thing, label⟩ :: new, by simpa using hedges, ?_, congrArg (thing :: ·) hthings⟩
      intro edge hedge
      rcases List.mem_cons.mp hedge with rfl | hedge
      · exact hlabel
      · exact hnew edge hedge
  | filename name hrest ih =>
    change Yields (pure () >>= fun _ => List.forM _ (TraceM.visit g)) s _ _
    rw [yields_bind, yields_pure]
    exact ih (fun other hmem => hfree other (List.mem_cons_of_mem _ hmem)) s

end Labelled

@[simp]
theorem some_mem_map_refs {kind : Kind} {refs : List (Option (Ref kind))} {child : Thing} :
    some child ∈ refs.map (·.map Ref.thing) ↔ child ∈ refs.flatMap refThings := by
  simp [refThings]

/-! Reported values are among the references of their object. -/

namespace ObjectCell

variable {object : ObjectCell} {child : Thing}

theorem mem_references_of_values {value : Value} (hmem : value ∈ object.values)
    (hvalue : value.thing? = some child) : child ∈ object.references := by
  simp only [references, List.mem_cons, List.mem_append, List.mem_filterMap]
  exact Or.inr (Or.inr (Or.inr ⟨value, hmem, hvalue⟩))

private theorem mem_of_getD {slots : Array Value} {index : Nat}
    (hvalue : (slots.getD index .undefined).thing? = some child) :
    slots.getD index .undefined ∈ slots.toList := by
  by_cases hlt : index < slots.size
  · simp [Array.getD, hlt]
  · simp [Array.getD, hlt, Value.thing?] at hvalue

/-- A region holds no thing that the object does not refer to. -/
theorem mem_references_of_region {region : Region} {index : Nat}
    (hvalue : (object.regionValue region index).thing? = some child) :
    child ∈ object.references := by
  refine mem_references_of_values ?_ hvalue
  simp only [values, List.mem_append]
  cases region with
  | fixed => exact Or.inl (Or.inl (mem_of_getD hvalue))
  | dynamic => exact Or.inl (Or.inr (mem_of_getD hvalue))
  | elements => exact Or.inr (mem_of_getD hvalue)

theorem mem_references_of_slot {index : Nat} (hvalue : (object.slot index).thing? = some child) :
    child ∈ object.references := by
  unfold slot at hvalue
  split at hvalue
  · exact mem_references_of_region hvalue
  · exact mem_references_of_region hvalue

theorem mem_references_of_hook {hook : Option Hook}
    (hmem : .report child ∈ hookVisits object hook) : child ∈ object.references := by
  unfold hookVisits at hmem
  split at hmem
  · obtain ⟨value, hregion, hvalue⟩ := report_mem_valueTableVisits.mp hmem
    obtain ⟨index, _, rfl⟩ := List.mem_map.mp hregion
    exact mem_references_of_region hvalue
  · split at hmem
    · rename_i thing hprivate
      obtain rfl : thing = child := by simpa using hmem
      simp [references, hprivate]
    · simp at hmem
  · simp at hmem

end ObjectCell

/-! The children of a thing of a sound graph. -/

namespace Graph

variable {g : Graph}

/-- The visits of a type object after those of its properties. -/
def typeFieldVisits (type : TypeCell) : List Visit :=
  fieldVisits "type_proto" type.proto ++
    ((if type.isLazy then [] else fieldVisits "type_singleton" type.singleton) ++
      ((match type.newScript with
        | some newScript =>
          edgeVisits (.named "type_new_function") newScript.function.thing ++
            edgeVisits (.named "type_new_shape") newScript.shape.thing
        | none => []) ++
        fieldVisits "type_function" type.function))

def propertyVisits (isMarker : Bool) (type : TypeCell) : List Visit :=
  (shownProperties isMarker type).flatMap fun id => edgeVisits (.named "type_prop") id.thing?

theorem typeObjectVisits_eq {id : TypeObjectId} {type : TypeCell}
    (hid : g.typeObject? id = some type) (isMarker : Bool) :
    typeObjectVisits g isMarker id = propertyVisits isMarker type ++ typeFieldVisits type := by
  rw [typeObjectVisits, hid, propertyVisits, typeFieldVisits]
  cases hscript : type.newScript with
  | none => simp only [hscript, List.append_assoc]
  | some newScript => simp only [hscript, List.append_assoc]

theorem report_mem_typeFieldVisits {type : TypeCell} {child : Thing} :
    .report child ∈ typeFieldVisits type ↔
      child ∈ refThings type.proto ∨ (type.isLazy = false ∧ child ∈ refThings type.singleton) ∨
        (child ∈ type.newScript.toList.flatMap fun newScript =>
          [newScript.function.thing, newScript.shape.thing]) ∨
        child ∈ refThings type.function := by
  have hsingle : .report child ∈ (if type.isLazy then [] else
      fieldVisits "type_singleton" type.singleton) ↔
      type.isLazy = false ∧ child ∈ refThings type.singleton := by
    cases type.isLazy <;> simp
  have hnew : .report child ∈ (match type.newScript with
      | some newScript =>
        edgeVisits (.named "type_new_function") newScript.function.thing ++
          edgeVisits (.named "type_new_shape") newScript.shape.thing
      | none => []) ↔ child ∈ type.newScript.toList.flatMap fun newScript =>
        [newScript.function.thing, newScript.shape.thing] := by
    cases type.newScript <;> simp [eq_comm]
  unfold typeFieldVisits
  rw [List.mem_append, List.mem_append, List.mem_append, hsingle, hnew,
    report_mem_fieldVisits, report_mem_fieldVisits]

private theorem mem_shownProperties {type : TypeCell} {isMarker : Bool} {property : PropertyId} :
    property ∈ shownProperties isMarker type ↔ type.singleton = none ∧
      some property ∈ type.properties.toList ∧
      (isMarker = true → ∃ id, property = .string id) := by
  unfold shownProperties
  cases hsingle : type.singleton with
  | some single => simp
  | none =>
    simp only [Option.isSome_none, Bool.false_eq_true, if_false, List.mem_filterMap, true_and]
    constructor
    · intro hgiven
      obtain ⟨held, hheld, hshown⟩ := hgiven
      match held with
      | none => cases hshown
      | some (.string id) =>
        cases hshown
        exact ⟨hheld, fun _ => ⟨id, rfl⟩⟩
      | some .void => cases isMarker <;> simp_all
      | some (.int _) => cases isMarker <;> simp_all
      | some (.object _) => cases isMarker <;> simp_all
    · intro hgiven
      obtain ⟨hheld, hstring⟩ := hgiven
      refine ⟨some property, hheld, ?_⟩
      cases isMarker
      · cases property <;> rfl
      · obtain ⟨id, rfl⟩ := hstring rfl
        rfl

/-- A marker is shown the properties that no object names. -/
theorem report_mem_propertyVisits {type : TypeCell} {isMarker : Bool} {child : Thing} :
    .report child ∈ propertyVisits isMarker type ↔
      (type.singleton = none ∧
        ∃ property, some property ∈ type.properties.toList ∧ property.thing? = some child) ∧
      (isMarker = true → child.kind ≠ .object) := by
  simp only [propertyVisits, List.mem_flatMap, report_mem_edgeVisits, mem_shownProperties]
  constructor
  · intro hgiven
    obtain ⟨property, ⟨hsingle, hheld, hstring⟩, hthing⟩ := hgiven
    refine ⟨⟨hsingle, property, hheld, hthing⟩, fun hmarker => ?_⟩
    obtain ⟨id, rfl⟩ := hstring hmarker
    obtain rfl : id.thing = child := Option.some.inj hthing
    simp [Ref.thing]
  · intro hgiven
    obtain ⟨⟨hsingle, property, hheld, hthing⟩, hkind⟩ := hgiven
    refine ⟨property, ⟨hsingle, hheld, fun hmarker => ?_⟩, hthing⟩
    cases property with
    | void => cases hthing
    | int value => cases hthing
    | string id => exact ⟨id, rfl⟩
    | object id =>
      obtain rfl : id.thing = child := Option.some.inj hthing
      exact absurd rfl (hkind hmarker)

private theorem labelled_fields (type : TypeCell) :
    Labelled (· ≠ .named "type_prop") (typeFieldVisits type) := by
  unfold typeFieldVisits
  refine (Labelled.fieldVisits (by decide) _).append (Labelled.append ?_ (Labelled.append ?_
    (Labelled.fieldVisits (by decide) _)))
  · split
    · exact Labelled.nil
    · exact Labelled.fieldVisits (by decide) _
  · split
    · exact (Labelled.edgeVisits (by decide) _).append (Labelled.edgeVisits (by decide) _)
    · exact Labelled.nil

private theorem labelled_properties (isMarker : Bool) (type : TypeCell) :
    Labelled (· = .named "type_prop") (propertyVisits isMarker type) :=
  Labelled.flatMap fun _ _ => Labelled.edgeVisits (by rfl) _

/-- The children of a thing that is no type object can be enumerated to the end, and
none of them is reported as the property of a type. -/
private theorem Sound.labelled (h : g.Sound) {thing : Thing} (hthing : g.contains thing = true)
    (hkind : thing.kind ≠ .typeObject) (isMarker : Bool) :
    Labelled (· ≠ .named "type_prop") (childVisits g isMarker thing) := by
  obtain ⟨kind, index⟩ := thing
  cases kind with
  | object =>
    obtain ⟨object, hid⟩ := exists_object (show g.contains (Ref.thing ⟨index⟩) = true from hthing)
    obtain ⟨objectClass, hclass⟩ := h.exists_class hid
    simp only [childVisits, objectVisits, hid, hclass]
    refine ((Labelled.edgeVisits (by decide) _).append
      (Labelled.edgeVisits (by decide) _)).append (Labelled.append ?_ ?_)
    · unfold hookVisits
      split
      · exact Labelled.valueTableVisits (by simp) _
      · split
        · exact Labelled.edgeVisits (by decide) _
        · exact Labelled.nil
      · exact Labelled.nil
    · split
      · exact Labelled.flatMap fun _ _ => Labelled.edgeVisits (by simp) _
      · exact Labelled.nil
  | string =>
    obtain ⟨string, hid⟩ := exists_string (show g.contains (Ref.thing ⟨index⟩) = true from hthing)
    simp only [childVisits, stringVisits, hid]
    split
    · exact Labelled.nil
    · exact Labelled.edgeVisits (by decide) _
    · exact (Labelled.edgeVisits (by decide) _).append (Labelled.edgeVisits (by decide) _)
  | script =>
    obtain ⟨script, hid⟩ := exists_script (show g.contains (Ref.thing ⟨index⟩) = true from hthing)
    simp only [childVisits, scriptVisits, hid]
    have hatoms : Labelled (· ≠ .named "type_prop") (script.atoms.flatMap (fieldVisits "atom")) :=
      Labelled.flatMap fun _ _ => Labelled.fieldVisits (by decide) _
    refine (((((((hatoms.append (Labelled.tableVisits (by simp) _)).append
      (Labelled.tableVisits (by simp) _)).append (Labelled.valueTableVisits (by simp) _)).append
      (Labelled.fieldVisits (by decide) _)).append ?_).append ?_).append
      (Labelled.fieldVisits (by decide) _)).append ?_
    · split
      · exact Labelled.nil
      · exact Labelled.fieldVisits (by decide) _
    · split
      · cases script.filename with
        | none => exact Labelled.nil
        | some name => exact Labelled.nil.filename name
      · exact Labelled.nil
    · split
      · exact Labelled.flatMap fun _ _ => Labelled.edgeVisits (by decide) _
      · exact Labelled.nil
  | shape =>
    obtain ⟨shape, hid⟩ := exists_shape (show g.contains (Ref.thing ⟨index⟩) = true from hthing)
    simp only [childVisits, shapeVisits, hid]
    exact ((Labelled.edgeVisits (by decide) _).append (Labelled.edgeVisits (by decide) _)).append
      (Labelled.fieldVisits (by decide) _)
  | baseShape =>
    obtain ⟨base, hid⟩ :=
      exists_baseShape (show g.contains (Ref.thing ⟨index⟩) = true from hthing)
    simp only [childVisits, baseShapeVisits, hid]
    exact (((Labelled.fieldVisits (by decide) _).append
      (Labelled.fieldVisits (by decide) _)).append
      (Labelled.fieldVisits (by decide) _)).append (Labelled.fieldVisits (by decide) _)
  | typeObject => exact absurd rfl hkind
  | xml =>
    obtain ⟨node, hid⟩ := exists_xml (show g.contains (Ref.thing ⟨index⟩) = true from hthing)
    simp only [childVisits, xmlVisits, hid]
    exact (((((Labelled.fieldVisits (by decide) _).append
      (Labelled.fieldVisits (by decide) _)).append (Labelled.fieldVisits (by decide) _)).append
      (Labelled.fieldVisits (by decide) _)).append (Labelled.tableVisits (by simp) _)).append
      (Labelled.tableVisits (by simp) _)

/-- The enumeration of the children of a thing goes on to the end. -/
theorem Sound.broken_notMem (h : g.Sound) {thing : Thing} (hthing : g.contains thing = true)
    (isMarker : Bool) (fault : Fault) : .broken fault ∉ childVisits g isMarker thing := by
  obtain ⟨kind, index⟩ := thing
  by_cases hkind : kind = .typeObject
  · subst hkind
    obtain ⟨type, hid⟩ :=
      exists_typeObject (show g.contains (Ref.thing ⟨index⟩) = true from hthing)
    change .broken fault ∉ typeObjectVisits g isMarker ⟨index⟩
    rw [typeObjectVisits_eq hid, List.mem_append, not_or]
    exact ⟨(labelled_properties isMarker type).broken_notMem fault,
      (labelled_fields type).broken_notMem fault⟩
  · exact (h.labelled hthing hkind isMarker).broken_notMem fault

theorem report_mem_scriptVisits {id : ScriptId} {script : ScriptCell}
    (hid : g.script? id = some script) {isMarker : Bool} {child : Thing}
    (hmem : .report child ∈ scriptVisits g isMarker id) : child ∈ script.references := by
  simp only [scriptVisits, hid, List.mem_append, List.mem_flatMap,
    report_mem_fieldVisits, report_mem_tableVisits, report_mem_valueTableVisits] at hmem
  simp only [ScriptCell.references, List.mem_append]
  rcases hmem with (((((((⟨atom, hatom, hmem⟩ | hmem) | hmem) | hmem) | hmem) | hmem) |
    hmem) | hmem) | hmem
  · have hatoms := List.mem_flatMap.mpr ⟨atom, hatom, hmem⟩
    simp only [hatoms, true_or]
  · simp only [some_mem_map_refs.mp hmem, true_or, or_true]
  · simp only [some_mem_map_refs.mp hmem, true_or, or_true]
  · simp only [List.mem_filterMap.mpr hmem, true_or, or_true]
  · simp only [hmem, true_or, or_true]
  · split at hmem
    · simp at hmem
    · simp only [report_mem_fieldVisits.mp hmem, true_or, or_true]
  · split at hmem <;> simp at hmem
  · simp only [hmem, true_or, or_true]
  · split at hmem
    · obtain ⟨value, hvalue, hmem⟩ := List.mem_flatMap.mp hmem
      have hclosure : child ∈ script.closures.filterMap Value.thing? :=
        List.mem_filterMap.mpr ⟨value, hvalue, report_mem_edgeVisits.mp hmem⟩
      simp only [hclosure, or_true]
    · simp at hmem

/-- Whatever is reported as a child is a thing of the graph. -/
theorem Sound.contains_of_report (h : g.Sound) {isMarker : Bool} {parent child : Thing}
    (hmem : .report child ∈ childVisits g isMarker parent) : g.contains child = true := by
  obtain ⟨kind, index⟩ := parent
  cases kind with
  | object =>
    cases hid : g.object? ⟨index⟩ with
    | none => simp [childVisits, objectVisits, hid] at hmem
    | some object =>
      apply (h.object hid).1.2 child
      obtain ⟨objectClass, hclass⟩ := h.exists_class hid
      simp only [childVisits, objectVisits, hid, hclass, List.mem_append,
        report_mem_edgeVisits, Option.some.injEq] at hmem
      rcases hmem with (rfl | rfl) | hhook | hslot
      · simp [ObjectCell.references]
      · simp [ObjectCell.references]
      · exact object.mem_references_of_hook hhook
      · split at hslot
        · obtain ⟨slot, hlt, hvalue⟩ := report_mem_slotVisits.mp hslot
          exact object.mem_references_of_slot hvalue
        · simp at hslot
  | string =>
    cases hid : g.string? ⟨index⟩ with
    | none => simp [childVisits, stringVisits, hid] at hmem
    | some string =>
      apply (h.string hid).1.2 child
      simp only [childVisits, stringVisits, hid] at hmem
      split at hmem <;> simp_all [StringCell.references, eq_comm]
  | script =>
    cases hid : g.script? ⟨index⟩ with
    | none => simp [childVisits, scriptVisits, hid] at hmem
    | some script => exact (h.script hid).2 child (report_mem_scriptVisits hid hmem)
  | shape =>
    cases hid : g.shape? ⟨index⟩ with
    | none => simp [childVisits, shapeVisits, hid] at hmem
    | some shape =>
      apply (h.shape hid).2 child
      simpa [childVisits, shapeVisits, hid, ShapeCell.references, eq_comm, or_assoc] using hmem
  | baseShape =>
    cases hid : g.baseShape? ⟨index⟩ with
    | none => simp [childVisits, baseShapeVisits, hid] at hmem
    | some base =>
      apply (h.baseShape hid).1.2 child
      simp only [childVisits, baseShapeVisits, accessorVisits, hid, List.mem_append,
        report_mem_fieldVisits] at hmem
      simp only [BaseShapeCell.references, List.mem_append]
      tauto
  | typeObject =>
    cases hid : g.typeObject? ⟨index⟩ with
    | none => simp [childVisits, typeObjectVisits, hid] at hmem
    | some type =>
      apply (h.typeObject hid).2 child
      change .report child ∈ typeObjectVisits g isMarker ⟨index⟩ at hmem
      rw [typeObjectVisits_eq hid, List.mem_append] at hmem
      simp only [TypeCell.references, List.mem_append]
      rcases hmem with hproperty | hfield
      · obtain ⟨⟨_, property, hheld, hthing⟩, _⟩ := report_mem_propertyVisits.mp hproperty
        have hproperties : child ∈ type.properties.toList.filterMap
            fun property => property.bind PropertyId.thing? :=
          List.mem_filterMap.mpr ⟨some property, hheld, hthing⟩
        simp only [hproperties, true_or]
      · rcases report_mem_typeFieldVisits.mp hfield with hproto | ⟨_, hsingle⟩ | hnew | hfunction
        · simp only [hproto, true_or, or_true]
        · simp only [hsingle, true_or, or_true]
        · simp only [hnew, or_true]
        · simp only [hfunction, true_or, or_true]
  | xml =>
    cases hid : g.xml? ⟨index⟩ with
    | none => simp [childVisits, xmlVisits, hid] at hmem
    | some node =>
      apply (h.xml hid).2 child
      simpa [childVisits, xmlVisits, hid, XmlCell.references, or_assoc] using hmem

theorem Sound.objection?_of_report (h : g.Sound) {isMarker : Bool} {parent child : Thing}
    (hmem : .report child ∈ childVisits g isMarker parent) : g.objection? child = none :=
  h.objection?_eq_none (h.contains_of_report hmem)

/-- The two sorts of tracers are shown different lists for type objects only. -/
private theorem things_childVisits {parent : Thing} (hkind : parent.kind ≠ .typeObject) :
    (childVisits g true parent).filterMap Visit.thing? =
      (childVisits g false parent).filterMap Visit.thing? := by
  obtain ⟨kind, index⟩ := parent
  cases kind with
  | script =>
    simp only [childVisits, scriptVisits]
    cases g.script? ⟨index⟩ with
    | none => rfl
    | some script => cases script.filename <;> simp [Visit.thing?]
  | typeObject => exact absurd rfl hkind
  | _ => rfl

/-- Of the properties of a type a marker is shown those that no object names. -/
private theorem things_propertyVisits (type : TypeCell) :
    (propertyVisits true type).filterMap Visit.thing? =
      ((propertyVisits false type).filterMap Visit.thing?).filter fun thing =>
        thing.kind ≠ .object := by
  have hproperties : ∀ isMarker, (propertyVisits isMarker type).filterMap Visit.thing? =
      (shownProperties isMarker type).filterMap PropertyId.thing? := fun isMarker =>
    things_flatMap _ (fun _ => .named "type_prop") PropertyId.thing?
  rw [hproperties, hproperties]
  unfold shownProperties
  cases type.singleton with
  | some single => rfl
  | none =>
    simp only [Option.isSome_none, Bool.false_eq_true, if_false]
    induction type.properties.toList with
    | nil => rfl
    | cons property properties ih =>
      match property with
      | none => simpa using ih
      | some (.string id) => simpa [PropertyId.thing?, Ref.thing] using ih
      | some .void => simpa [List.filterMap_cons, PropertyId.thing?] using ih
      | some (.int _) => simpa [List.filterMap_cons, PropertyId.thing?] using ih
      | some (.object id) => simpa [PropertyId.thing?, Ref.thing] using ih

private theorem exists_shownEdges (parent : Thing) (post : List Edge → Prop)
    (hyields : Yields ((childVisits g false parent).forM (TraceM.visit g)) {}
      (fun _ t => post t.edges.toList) fun _ _ => False) : post (g.shownEdges parent) := by
  obtain ⟨_, t, hrun, hpost⟩ := hyields.exists_post
  have hmake : TraceM.make g (.children parent) {} = .ok ⟨⟩ t := hrun
  simpa only [shownEdges, hmake] using hpost

/-- Edges under other labels than that of properties lead to children. -/
private theorem filter_of_fields {edges : List Edge}
    (h : ∀ edge ∈ edges, edge.label ≠ .named "type_prop") :
    (edges.filter fun edge => ¬ edge.NamesProperty) = edges :=
  List.filter_eq_self.mpr fun edge hedge =>
    decide_eq_true fun hproperty => h edge hedge hproperty.1

private theorem filter_of_properties {edges : List Edge}
    (h : ∀ edge ∈ edges, edge.label = .named "type_prop") :
    (edges.filter fun edge => ¬ edge.NamesProperty).map Edge.thing =
      (edges.map Edge.thing).filter fun thing => thing.kind ≠ .object := by
  rw [List.filter_map]
  congr 1
  refine List.filter_congr fun edge hedge => decide_eq_decide.mpr ?_
  simp only [Edge.NamesProperty, h edge hedge, true_and]

/-- Of anything but a type object a generic tracer is shown what a marker is shown, and
none of it under the label of a property. -/
theorem Sound.things_shownEdges_of_ne (h : g.Sound) {parent : Thing}
    (hparent : g.contains parent = true) (hkind : parent.kind ≠ .typeObject) :
    (∀ edge ∈ g.shownEdges parent, edge.label ≠ .named "type_prop") ∧
      (g.shownEdges parent).map Edge.thing =
        (childVisits g true parent).filterMap Visit.thing? := by
  have hfree : ∀ thing, .report thing ∈ childVisits g false parent →
      g.objection? thing = none := fun _ hmem => h.objection?_of_report hmem
  refine exists_shownEdges parent (fun edges => (∀ edge ∈ edges, edge.label ≠ _) ∧
    edges.map Edge.thing = _) ?_
  refine ((h.labelled hparent hkind false).yields_edges hfree {}).imp ?_
  intro _ t hend
  obtain ⟨new, hedges, hlabels, hthings⟩ := hend
  rw [hedges, things_childVisits hkind]
  exact ⟨hlabels, hthings⟩

/-- A generic tracer is shown the things that a marker is shown, in the same order, and
besides them the objects that name properties of a type. -/
theorem Sound.things_shownEdges (h : g.Sound) {parent : Thing}
    (hparent : g.contains parent = true) :
    ((g.shownEdges parent).filter fun edge => ¬ edge.NamesProperty).map Edge.thing =
      (childVisits g true parent).filterMap Visit.thing? := by
  obtain ⟨kind, index⟩ := parent
  by_cases hkind : kind = .typeObject
  · subst hkind
    obtain ⟨type, hid⟩ :=
      exists_typeObject (show g.contains (Ref.thing ⟨index⟩) = true from hparent)
    have hvisits : ∀ isMarker, childVisits g isMarker ⟨.typeObject, index⟩ =
        propertyVisits isMarker type ++ typeFieldVisits type := typeObjectVisits_eq hid
    have hfree : ∀ thing, .report thing ∈ propertyVisits false type ++ typeFieldVisits type →
        g.objection? thing = none := by
      intro thing hmem
      rw [← hvisits false] at hmem
      exact h.objection?_of_report hmem
    refine exists_shownEdges _ (fun edges => (edges.filter _).map Edge.thing = _) ?_
    rw [hvisits false, hvisits true, yields_forM_append]
    refine ((labelled_properties false type).yields_edges (fun thing hmem =>
      hfree thing (List.mem_append_left _ hmem)) {}).imp ?_
    intro _ s hend
    obtain ⟨properties, hs, hproperties, hshown⟩ := hend
    refine ((labelled_fields type).yields_edges (fun thing hmem =>
      hfree thing (List.mem_append_right _ hmem)) s).imp ?_
    intro _ t hend
    obtain ⟨fields, ht, hfields, hothers⟩ := hend
    rw [ht, hs, List.filter_append, List.filter_append, List.map_append, List.map_append,
      filter_of_properties hproperties, filter_of_fields hfields, hshown, hothers,
      List.filterMap_append, things_propertyVisits]
    rfl
  · obtain ⟨hlabels, hthings⟩ := h.things_shownEdges_of_ne hparent hkind
    rw [filter_of_fields hlabels, hthings]

/-- The children of a thing are what a marker is shown of it. -/
theorem Sound.child_iff (h : g.Sound) {parent child : Thing} (hparent : g.contains parent = true) :
    g.Child parent child ↔ .report child ∈ childVisits g true parent := by
  rw [← mem_filterMap_thing?, ← h.things_shownEdges hparent, Child]
  simp only [List.mem_map, List.mem_filter, decide_eq_true_eq, and_assoc, and_comm]

/-- Whatever a generic tracer is shown of anything but a type object is a child. -/
theorem Sound.child_of_shown (h : g.Sound) {parent : Thing} (hparent : g.contains parent = true)
    (hkind : parent.kind ≠ .typeObject) {edge : Edge} (hedge : edge ∈ g.shownEdges parent) :
    g.Child parent edge.thing :=
  ⟨edge, hedge, rfl, fun hproperty =>
    (h.things_shownEdges_of_ne hparent hkind).1 edge hedge hproperty.1⟩

/-! The children of a thing by its kind. -/

theorem Sound.child_string (h : g.Sound) {id : StringId} {string : StringCell}
    (hid : g.string? id = some string) {child : Thing} :
    g.Child id.thing child ↔ child ∈ string.references := by
  rw [h.child_iff (contains_of_getElem? rfl hid)]
  change .report child ∈ stringVisits g id ↔ _
  simp only [stringVisits, hid, StringCell.references]
  cases string.layout <;> simp [eq_comm]

theorem Sound.child_shape (h : g.Sound) {id : ShapeId} {shape : ShapeCell}
    (hid : g.shape? id = some shape) {child : Thing} :
    g.Child id.thing child ↔ child ∈ shape.references := by
  rw [h.child_iff (contains_of_getElem? rfl hid)]
  change .report child ∈ shapeVisits g id ↔ _
  simp [shapeVisits, hid, ShapeCell.references, eq_comm]

theorem Sound.child_baseShape (h : g.Sound) {id : BaseShapeId} {base : BaseShapeCell}
    (hid : g.baseShape? id = some base) {child : Thing} :
    g.Child id.thing child ↔ child ∈ base.references := by
  rw [h.child_iff (contains_of_getElem? rfl hid)]
  change .report child ∈ baseShapeVisits g id ↔ _
  simp only [baseShapeVisits, accessorVisits, hid, BaseShapeCell.references, List.mem_append,
    report_mem_fieldVisits]
  tauto

theorem Sound.child_typeObject (h : g.Sound) {id : TypeObjectId} {type : TypeCell}
    (hid : g.typeObject? id = some type) {child : Thing} :
    g.Child id.thing child ↔
      .report child ∈ propertyVisits true type ∨ .report child ∈ typeFieldVisits type := by
  rw [h.child_iff (contains_of_getElem? rfl hid)]
  change .report child ∈ typeObjectVisits g true id ↔ _
  rw [typeObjectVisits_eq hid, List.mem_append]

theorem Sound.child_object (h : g.Sound) {id : ObjectId} {object : ObjectCell}
    (hid : g.object? id = some object) {objectClass : Class}
    (hclass : g.classOf? object = some objectClass) {child : Thing} :
    g.Child id.thing child ↔ object.type.thing = child ∨ object.shape.thing = child ∨
      .report child ∈ hookVisits object objectClass.hook ∨
      (objectClass.native = true ∧
        ∃ index < object.span, (object.slot index).thing? = some child) := by
  rw [h.child_iff (contains_of_getElem? rfl hid)]
  change .report child ∈ objectVisits g id ↔ _
  have hslots : .report child ∈ (if objectClass.native then slotVisits id object else []) ↔
      objectClass.native = true ∧
        ∃ index < object.span, (object.slot index).thing? = some child := by
    cases objectClass.native <;> simp [report_mem_slotVisits]
  simp only [objectVisits, hid, hclass, List.mem_append, report_mem_edgeVisits,
    Option.some.injEq, or_assoc, hslots]

end Graph

end MarkPhase
