import MarkPhase.Proofs.Edges
import MarkPhase.Proofs.Labels

/-!
Where things are held. A cell has places for other things: fields, positions of tables, slots.
Some of them do not count, such as the global of a script that was cached for eval. A tracer
that is shown the children of a thing receives the edges that start at the places that count
and hold something, in the order of the places and under their labels.
-/

namespace MarkPhase

/-- The places of a thing of some kind where another thing may be held. -/
inductive Location : Kind → Type
  | type : Location .object
  | shape : Location .object
  | element (index : Nat) : Location .object
  | privateThing : Location .object
  | slot (index : Nat) : Location .object
  | depended : Location .string
  | left : Location .string
  | right : Location .string
  | atom (index : Nat) : Location .script
  | literal (index : Nat) : Location .script
  | regexp (index : Nat) : Location .script
  | const (index : Nat) : Location .script
  | function : Location .script
  | global : Location .script
  | bindings : Location .script
  | closure (index : Nat) : Location .script
  | base : Location .shape
  | property : Location .shape
  | previous : Location .shape
  | getter : Location .baseShape
  | setter : Location .baseShape
  | twin : Location .baseShape
  | parent : Location .baseShape
  | typeProperty (index : Nat) : Location .typeObject
  | proto : Location .typeObject
  | singleton : Location .typeObject
  | constructor : Location .typeObject
  | initialShape : Location .typeObject
  | interpreted : Location .typeObject
  | reflected : Location .xml
  | name : Location .xml
  | value : Location .xml
  | container : Location .xml
  | kid (index : Nat) : Location .xml
  | attr (index : Nat) : Location .xml
deriving DecidableEq

/-- The label of the edge that starts at a place. -/
def Location.label {kind : Kind} (owner : Ref kind) : Location kind → Label
  | .type => .named "type"
  | .shape => .named "shape"
  | .element index => .indexed "element" index
  | .privateThing => .named "private"
  | .slot index => .slot owner index
  | .depended => .named "base"
  | .left => .named "left child"
  | .right => .named "right child"
  | .atom _ => .named "atom"
  | .literal index => .indexed "objects" index
  | .regexp index => .indexed "regexps" index
  | .const index => .indexed "consts" index
  | .function => .named "function"
  | .global => .named "global"
  | .bindings => .named "bindings"
  | .closure _ => .named "trap closure"
  | .base => .named "base"
  | .property => .named "propid"
  | .previous => .named "parent"
  | .getter => .named "getter"
  | .setter => .named "setter"
  | .twin => .named "base"
  | .parent => .named "parent"
  | .typeProperty _ => .named "type_prop"
  | .proto => .named "type_proto"
  | .singleton => .named "type_singleton"
  | .constructor => .named "type_new_function"
  | .initialShape => .named "type_new_shape"
  | .interpreted => .named "type_function"
  | .reflected => .named "object"
  | .name => .named "name"
  | .value => .named "value"
  | .container => .named "xml_parent"
  | .kid index => .indexed "xml_kids" index
  | .attr index => .indexed "xml_attrs" index

theorem Location.label_ne_blank {kind : Kind} (owner : Ref kind) (location : Location kind) :
    location.label owner ≠ .blank := by
  cases location <;> simp [label]

/-! What a cell holds at a place that counts, and its places in the order in which they are
visited. -/

/-- The class decides whether elements, the private thing and the slots below the span count. -/
def ObjectCell.heldAt (object : ObjectCell) (objectClass : Class) : Location .object → Option Thing
  | .type => some object.type.thing
  | .shape => some object.shape.thing
  | .element index =>
    if objectClass.hook = some .elements then object.elements[index]?.bind Value.thing? else none
  | .privateThing =>
    if objectClass.hook = some .privateThing then object.privateThing else none
  | .slot index =>
    if objectClass.native ∧ index < object.span then (object.slot index).thing? else none

def ObjectCell.places (object : ObjectCell) : List (Location .object) :=
  [.type, .shape] ++ (List.range object.elements.size).map .element ++ [.privateThing] ++
    (List.range object.span).map .slot

def StringCell.heldAt (string : StringCell) : Location .string → Option Thing
  | .depended => string.base?.map Ref.thing
  | .left => string.parts?.map (·.1.thing)
  | .right => string.parts?.map (·.2.thing)

def StringCell.places : List (Location .string) :=
  [.depended, .left, .right]

/-- The global counts unless the script was cached for eval, and trap closures while the
debugger has set something. -/
def ScriptCell.heldAt (script : ScriptCell) : Location .script → Option Thing
  | .atom index => script.atoms[index]?.join.map Ref.thing
  | .literal index => (script.objects.getD [])[index]?.join.map Ref.thing
  | .regexp index => (script.regexps.getD [])[index]?.join.map Ref.thing
  | .const index => (script.consts.getD [])[index]?.bind Value.thing?
  | .function => script.function.map Ref.thing
  | .global => if script.isCachedEval then none else script.global.map Ref.thing
  | .bindings => script.bindings.map Ref.thing
  | .closure index => if script.isDebugged then script.closures[index]?.bind Value.thing? else none

def ScriptCell.places (script : ScriptCell) : List (Location .script) :=
  (List.range script.atoms.length).map .atom ++
    (List.range (script.objects.getD []).length).map .literal ++
    (List.range (script.regexps.getD []).length).map .regexp ++
    (List.range (script.consts.getD []).length).map .const ++
    [.function] ++ [.global] ++ [.bindings] ++
    (List.range script.closures.length).map .closure

def ShapeCell.heldAt (shape : ShapeCell) : Location .shape → Option Thing
  | .base => some shape.base.thing
  | .property => shape.property.thing?
  | .previous => shape.previous.map Ref.thing

def ShapeCell.places : List (Location .shape) :=
  [.base, .property, .previous]

def BaseShapeCell.heldAt (base : BaseShapeCell) : Location .baseShape → Option Thing
  | .getter => base.getter.map Ref.thing
  | .setter => base.setter.map Ref.thing
  | .twin => base.twin.map Ref.thing
  | .parent => base.parent.map Ref.thing

def BaseShapeCell.places : List (Location .baseShape) :=
  [.getter, .setter, .twin, .parent]

/-- The properties count unless the type is that of a singleton, and a singleton unless it is
lazy. -/
def TypeCell.heldAt (type : TypeCell) : Location .typeObject → Option Thing
  | .typeProperty index =>
    if type.singleton.isSome then none
    else type.properties[index]?.join.bind PropertyId.thing?
  | .proto => type.proto.map Ref.thing
  | .singleton => if type.isLazy then none else type.singleton.map Ref.thing
  | .constructor => type.newScript.map (·.function.thing)
  | .initialShape => type.newScript.map (·.shape.thing)
  | .interpreted => type.function.map Ref.thing

def TypeCell.places (type : TypeCell) : List (Location .typeObject) :=
  (List.range type.properties.size).map .typeProperty ++
    [.proto, .singleton, .constructor, .initialShape, .interpreted]

def XmlCell.heldAt (node : XmlCell) : Location .xml → Option Thing
  | .reflected => node.object.map Ref.thing
  | .name => node.name.map Ref.thing
  | .value => node.value.map Ref.thing
  | .container => node.parent.map Ref.thing
  | .kid index => node.kids[index]?.map Ref.thing
  | .attr index => node.attrs[index]?.map Ref.thing

def XmlCell.places (node : XmlCell) : List (Location .xml) :=
  [.reflected] ++ [.name] ++ [.value] ++ [.container] ++ (List.range node.kids.size).map .kid ++
    (List.range node.attrs.size).map .attr

namespace Graph

/-- The thing that is held at a place, if the place counts and holds one. -/
def heldAt (g : Graph) : {kind : Kind} → Ref kind → Location kind → Option Thing
  | .object, owner, location => do
    let object ← g.object? owner
    let objectClass ← g.classOf? object
    object.heldAt objectClass location
  | .string, owner, location => (g.string? owner).bind (·.heldAt location)
  | .script, owner, location => (g.script? owner).bind (·.heldAt location)
  | .shape, owner, location => (g.shape? owner).bind (·.heldAt location)
  | .baseShape, owner, location => (g.baseShape? owner).bind (·.heldAt location)
  | .typeObject, owner, location => (g.typeObject? owner).bind (·.heldAt location)
  | .xml, owner, location => (g.xml? owner).bind (·.heldAt location)

/-- The entries of a table by its name: present things, holes and values that are no things. -/
def table (g : Graph) : {kind : Kind} → Ref kind → (name : String) → List (Option Thing)
  | .object, owner, name =>
    match g.object? owner, name with
    | some object, "element" => object.elements.toList.map Value.thing?
    | _, _ => []
  | .script, owner, name =>
    match g.script? owner, name with
    | some script, "objects" => (script.objects.getD []).map (·.map Ref.thing)
    | some script, "regexps" => (script.regexps.getD []).map (·.map Ref.thing)
    | some script, "consts" => (script.consts.getD []).map Value.thing?
    | _, _ => []
  | .xml, owner, name =>
    match g.xml? owner, name with
    | some node, "xml_kids" => node.kids.toList.map fun kid => some kid.thing
    | some node, "xml_attrs" => node.attrs.toList.map fun attr => some attr.thing
    | _, _ => []
  | _, _, _ => []

end Graph

/-! Edges that do not depend on the label at hand before. -/

/-- On the way through the visits exactly these edges are received, whatever label is at hand
before. -/
def Shows (visits : List Visit) (edges : List Edge) : Prop :=
  ∀ label, edgesShown label visits = edges

/-- The edges that start at the places where something is held. -/
def edgesFrom {kind : Kind} (owner : Ref kind) (held : Location kind → Option Thing)
    (places : List (Location kind)) : List Edge :=
  places.filterMap fun location => (held location).map (Edge.mk · (location.label owner))

namespace Shows

variable {kind : Kind} {owner : Ref kind} {held : Location kind → Option Thing}
  {location : Location kind} {places further : List (Location kind)} {visits others : List Visit}

theorem append (h : Shows visits (edgesFrom owner held places))
    (hothers : Shows others (edgesFrom owner held further)) :
    Shows (visits ++ others) (edgesFrom owner held (places ++ further)) := by
  intro label
  rw [edgesShown_append, h, hothers, edgesFrom, edgesFrom, edgesFrom, List.filterMap_append]

theorem cons (h : Shows visits (edgesFrom owner held [location]))
    (hothers : Shows others (edgesFrom owner held further)) :
    Shows (visits ++ others) (edgesFrom owner held (location :: further)) :=
  append h hothers

theorem edge {name : Label} {thing : Option Thing} (hlabel : location.label owner = name)
    (hheld : held location = thing) :
    Shows (edgeVisits name thing) (edgesFrom owner held [location]) := by
  intro label
  subst hlabel hheld
  cases hthing : held location with
  | none => simp [edgeVisits, edgesShown, edgesFrom, hthing, Visit.thing?]
  | some thing => simp [edgeVisits, edgesShown, edgesFrom, hthing, Visit.thing?, Label.after]

theorem absent (h : ∀ location ∈ places, held location = none) :
    Shows [] (edgesFrom owner held places) := by
  intro label
  rw [edgesFrom, List.filterMap_eq_nil_iff.mpr fun location hmem => by rw [h location hmem]; rfl]
  rfl

theorem field {target : Kind} {name : String} {ref : Option (Ref target)}
    (hlabel : location.label owner = .named name) (hheld : held location = ref.map Ref.thing) :
    Shows (fieldVisits name ref) (edgesFrom owner held [location]) := by
  cases ref with
  | none => exact absent fun _ hmem => (List.mem_singleton.mp hmem).symm ▸ hheld
  | some ref => exact edge hlabel hheld

/-- A run of places of one sort, one for each entry of a list. -/
theorem flatMap {α : Type} {xs : List α} {visit : α → List Visit} {place : Nat → Location kind}
    (h : ∀ index x, xs[index]? = some x →
      Shows (visit x) (edgesFrom owner held [place index])) :
    Shows (xs.flatMap visit) (edgesFrom owner held ((List.range xs.length).map place)) := by
  induction xs generalizing place with
  | nil => exact absent (by simp)
  | cons x xs ih =>
    rw [List.flatMap_cons, List.length_cons, List.range_succ_eq_map, List.map_cons, List.map_map]
    exact cons (h 0 x rfl) (ih fun index y hy => h (index + 1) y hy)

theorem fullTable {name : String} {things : List (Option Thing)} {place : Nat → Location kind}
    (hlabel : ∀ index, (place index).label owner = .indexed name index)
    (hheld : ∀ index, held (place index) = things[index]?.join) :
    Shows (fullTableVisits name things)
      (edgesFrom owner held ((List.range things.length).map place)) := by
  rw [← List.length_zipIdx (l := things) (i := 0)]
  refine flatMap fun index entry hentry => ?_
  obtain ⟨thing, hthing, rfl⟩ : ∃ thing, things[index]? = some thing ∧ (thing, index) = entry := by
    simpa [List.getElem?_zipIdx] using hentry
  exact edge (hlabel index) (by rw [hheld, hthing]; rfl)

/-- A hole is passed over. -/
theorem table {name : String} {things : List (Option Thing)} {place : Nat → Location kind}
    (hlabel : ∀ index, (place index).label owner = .indexed name index)
    (hheld : ∀ index, held (place index) = things[index]?.join) :
    Shows (tableVisits name things)
      (edgesFrom owner held ((List.range things.length).map place)) := by
  rw [← List.length_zipIdx (l := things) (i := 0)]
  refine flatMap fun index entry hentry => ?_
  obtain ⟨thing, hthing, rfl⟩ : ∃ thing, things[index]? = some thing ∧ (thing, index) = entry := by
    simpa [List.getElem?_zipIdx] using hentry
  have hplace : held (place index) = thing := by rw [hheld, hthing]; rfl
  cases thing with
  | none => exact absent fun _ hmem => (List.mem_singleton.mp hmem).symm ▸ hplace
  | some thing => exact edge (hlabel index) hplace

theorem valueTable {name : String} {values : List Value} {place : Nat → Location kind}
    (hlabel : ∀ index, (place index).label owner = .indexed name index)
    (hheld : ∀ index, held (place index) = values[index]?.bind Value.thing?) :
    Shows (valueTableVisits name values)
      (edgesFrom owner held ((List.range values.length).map place)) := by
  have hlength : (values.map Value.thing?).length = values.length := List.length_map Value.thing?
  rw [← hlength]
  refine fullTable hlabel fun index => ?_
  rw [hheld, List.getElem?_map]
  cases values[index]? <;> rfl

/-- Nothing is visited where nothing is held. -/
theorem nothing (h : held location = none) : Shows [] (edgesFrom owner held [location]) :=
  absent fun _ hmem => (List.mem_singleton.mp hmem).symm ▸ h

theorem noRun {places : Nat} {place : Nat → Location kind}
    (h : ∀ index, held (place index) = none) :
    Shows [] (edgesFrom owner held ((List.range places).map place)) := by
  refine absent fun location hmem => ?_
  obtain ⟨index, -, rfl⟩ := List.mem_map.mp hmem
  exact h index

/-- The visits count only under a condition. -/
theorem ite {c : Prop} [Decidable c] (hthen : c → Shows visits (edgesFrom owner held places))
    (helse : ¬ c → Shows others (edgesFrom owner held places)) :
    Shows (if c then visits else others) (edgesFrom owner held places) := by
  by_cases h : c
  · simpa only [if_pos h] using hthen h
  · simpa only [if_neg h] using helse h

end Shows

/-! The children of a thing by its kind. -/

theorem ObjectCell.region_elements (object : ObjectCell) :
    object.region .elements = object.elements.toList := by
  refine List.ext_getElem (by simp [region, regionSize]) fun index hleft hright => ?_
  have hlt : index < object.elements.size := by simpa using hright
  simp [region, regionValue, Array.getD, hlt]

namespace Graph

variable {g : Graph}

theorem shows_hook (id : ObjectId) (object : ObjectCell) (objectClass : Class) :
    Shows (hookVisits object objectClass.hook) (edgesFrom id (object.heldAt objectClass)
      ((List.range object.elements.size).map .element ++ [.privateThing])) := by
  have hnone : objectClass.hook ≠ some .elements → Shows [] (edgesFrom id
      (object.heldAt objectClass) ((List.range object.elements.size).map .element)) :=
    fun hhook => .noRun fun index => by simp [ObjectCell.heldAt, hhook]
  have hprivate : objectClass.hook ≠ some .privateThing →
      Shows [] (edgesFrom id (object.heldAt objectClass) [.privateThing]) :=
    fun hhook => .nothing (by simp [ObjectCell.heldAt, hhook])
  cases hhook : objectClass.hook with
  | none => exact (hnone (by simp [hhook])).append (hprivate (by simp [hhook]))
  | some hook =>
    cases hook with
    | elements =>
      have helements : Shows (valueTableVisits "element" object.elements.toList)
          (edgesFrom id (object.heldAt objectClass)
            ((List.range object.elements.toList.length).map .element)) :=
        .valueTable (fun _ => rfl) fun index => by simp [ObjectCell.heldAt, hhook]
      rw [hookVisits, object.region_elements, ← List.append_nil (valueTableVisits _ _)]
      exact helements.append (hprivate (by simp [hhook]))
    | privateThing =>
      rw [hookVisits]
      refine (hnone (by simp [hhook])).append ?_
      cases hthing : object.privateThing with
      | none => exact .nothing (by simp [ObjectCell.heldAt, hthing])
      | some thing => exact .edge rfl (by simp [ObjectCell.heldAt, hhook, hthing])

theorem shows_object {id : ObjectId} {object : ObjectCell} {objectClass : Class}
    (hid : g.object? id = some object) (hclass : g.classOf? object = some objectClass) :
    Shows (objectVisits g id) (edgesFrom id (object.heldAt objectClass) object.places) := by
  have hslots : Shows (if objectClass.native then slotVisits id object else [])
      (edgesFrom id (object.heldAt objectClass) ((List.range object.span).map .slot)) := by
    refine .ite (fun hnative => ?_) fun hnative => .noRun fun index => by
      simp [ObjectCell.heldAt, hnative]
    have hrun : Shows (slotVisits id object) (edgesFrom id (object.heldAt objectClass)
        ((List.range (List.range object.span).length).map .slot)) := by
      refine .flatMap fun index slot hslot => ?_
      obtain ⟨hlt, rfl⟩ : ∃ _ : index < object.span, index = slot := by
        simpa [List.getElem?_eq_some_iff] using hslot
      exact .edge rfl (by simp [ObjectCell.heldAt, hnative, hlt])
    simpa using hrun
  simp only [objectVisits, hid, hclass, ObjectCell.places]
  rw [List.append_assoc _ _ [Location.privateThing], List.append_assoc _ (_ ++ _)]
  have htype : Shows (edgeVisits (.named "type") object.type.thing)
      (edgesFrom id (object.heldAt objectClass) [.type]) := .edge rfl rfl
  have hshape : Shows (edgeVisits (.named "shape") object.shape.thing)
      (edgesFrom id (object.heldAt objectClass) [.shape]) := .edge rfl rfl
  exact (htype.append hshape).append ((shows_hook id object objectClass).append hslots)

theorem shows_string {id : StringId} {string : StringCell} (hid : g.string? id = some string) :
    Shows (stringVisits g id) (edgesFrom id string.heldAt StringCell.places) := by
  simp only [stringVisits, hid]
  cases hlayout : string.layout with
  | linear chars =>
    refine Shows.absent fun location _ => ?_
    cases location <;> simp [StringCell.heldAt, StringCell.base?, StringCell.parts?, hlayout]
  | dependent base start length =>
    have hbase : Shows (edgeVisits (.named "base") base.thing)
        (edgesFrom id string.heldAt [.depended]) :=
      .edge rfl (by simp [StringCell.heldAt, StringCell.base?, hlayout])
    have hparts : Shows [] (edgesFrom id string.heldAt [.left, .right]) := by
      refine .absent fun location hmem => ?_
      simp only [List.mem_cons, List.not_mem_nil, or_false] at hmem
      rcases hmem with rfl | rfl <;> simp [StringCell.heldAt, StringCell.parts?, hlayout]
    have hall := hbase.cons hparts
    rwa [List.append_nil] at hall
  | rope left right length =>
    have hdepended : Shows [] (edgesFrom id string.heldAt [.depended]) :=
      .nothing (by simp [StringCell.heldAt, StringCell.base?, hlayout])
    have hleft : Shows (edgeVisits (.named "left child") left.thing)
        (edgesFrom id string.heldAt [.left]) :=
      .edge rfl (by simp [StringCell.heldAt, StringCell.parts?, hlayout])
    have hright : Shows (edgeVisits (.named "right child") right.thing)
        (edgesFrom id string.heldAt [.right]) :=
      .edge rfl (by simp [StringCell.heldAt, StringCell.parts?, hlayout])
    exact hdepended.cons (hleft.cons hright)

theorem shows_script {id : ScriptId} {script : ScriptCell} (hid : g.script? id = some script) :
    Shows (scriptVisits g false id) (edgesFrom id script.heldAt script.places) := by
  have hrefs : ∀ {kind : Kind} (refs : List (Option (Ref kind))) (index : Nat),
      refs[index]?.join.map Ref.thing = (refs.map (·.map Ref.thing))[index]?.join := by
    intro kind refs index
    rw [List.getElem?_map]
    cases refs[index]? <;> rfl
  have hatoms : Shows (script.atoms.flatMap (fieldVisits "atom"))
      (edgesFrom id script.heldAt ((List.range script.atoms.length).map .atom)) :=
    .flatMap fun index atom hatom => .field rfl (by simp [ScriptCell.heldAt, hatom])
  have hobjects : Shows (tableVisits "objects" ((script.objects.getD []).map (·.map Ref.thing)))
      (edgesFrom id script.heldAt ((List.range
        ((script.objects.getD []).map (·.map Ref.thing)).length).map .literal)) :=
    .table (fun _ => rfl) (hrefs _)
  have hregexps : Shows (tableVisits "regexps" ((script.regexps.getD []).map (·.map Ref.thing)))
      (edgesFrom id script.heldAt ((List.range
        ((script.regexps.getD []).map (·.map Ref.thing)).length).map .regexp)) :=
    .table (fun _ => rfl) (hrefs _)
  have hconsts : Shows (valueTableVisits "consts" (script.consts.getD []))
      (edgesFrom id script.heldAt ((List.range (script.consts.getD []).length).map .const)) :=
    .valueTable (fun _ => rfl) fun _ => rfl
  have hglobal : Shows (if script.isCachedEval then [] else fieldVisits "global" script.global)
      (edgesFrom id script.heldAt [.global]) :=
    .ite (fun hcached => .nothing (by simp [ScriptCell.heldAt, hcached]))
      fun hcached => .field rfl (by simp [ScriptCell.heldAt, hcached])
  have hclosures : Shows (if script.isDebugged then
        script.closures.flatMap fun value => edgeVisits (.named "trap closure") value.thing?
      else [])
      (edgesFrom id script.heldAt ((List.range script.closures.length).map .closure)) := by
    refine .ite (fun hdebugged => .flatMap fun index value hvalue => .edge rfl ?_)
      fun hdebugged => .noRun fun index => by simp [ScriptCell.heldAt, hdebugged]
    simp [ScriptCell.heldAt, hdebugged, hvalue]
  rw [List.length_map] at hobjects hregexps
  simp only [scriptVisits, hid, ScriptCell.places, Bool.false_eq_true, if_false, List.append_nil]
  exact ((((((hatoms.append hobjects).append hregexps).append hconsts).append
    (.field rfl rfl)).append hglobal).append (.field rfl rfl)).append hclosures

theorem shows_shape {id : ShapeId} {shape : ShapeCell} (hid : g.shape? id = some shape) :
    Shows (shapeVisits g id) (edgesFrom id shape.heldAt ShapeCell.places) := by
  simp only [shapeVisits, hid, List.append_assoc]
  exact Shows.cons (.edge rfl rfl) (Shows.cons (.edge rfl rfl) (.field rfl rfl))

theorem shows_baseShape {id : BaseShapeId} {base : BaseShapeCell}
    (hid : g.baseShape? id = some base) :
    Shows (baseShapeVisits g id) (edgesFrom id base.heldAt BaseShapeCell.places) := by
  simp only [baseShapeVisits, hid, accessorVisits, List.append_assoc]
  exact Shows.cons (.field rfl rfl) (Shows.cons (.field rfl rfl)
    (Shows.cons (.field rfl rfl) (.field rfl rfl)))

/-- Of the properties of a type a generic tracer is shown all that are there. -/
theorem shows_properties (id : TypeObjectId) (type : TypeCell) :
    Shows (propertyVisits false type) (edgesFrom id type.heldAt
      ((List.range type.properties.size).map .typeProperty)) := by
  cases hsingleton : type.singleton with
  | some single =>
    have hvisits : propertyVisits false type = [] := by
      simp [propertyVisits, shownProperties, hsingleton]
    rw [hvisits]
    exact .noRun fun index => by simp [TypeCell.heldAt, hsingleton]
  | none =>
    have hvisits : propertyVisits false type = type.properties.toList.flatMap fun property =>
        property.toList.flatMap fun id => edgeVisits (.named "type_prop") id.thing? := by
      simp only [propertyVisits, shownProperties, hsingleton, Option.isSome_none,
        Bool.false_eq_true, if_false]
      induction type.properties.toList with
      | nil => rfl
      | cons property properties ih =>
        rw [List.flatMap_cons, ← ih]
        cases property with
        | none => rfl
        | some id => cases id <;> rfl
    rw [hvisits, ← Array.length_toList]
    refine .flatMap fun index property hproperty => ?_
    have hheld : type.heldAt (.typeProperty index) = property.bind PropertyId.thing? := by
      rw [Array.getElem?_toList] at hproperty
      simp [TypeCell.heldAt, hsingleton, hproperty]
    cases property with
    | none => exact .nothing hheld
    | some property =>
      simp only [Option.toList_some, List.flatMap_cons, List.flatMap_nil, List.append_nil]
      exact .edge rfl hheld

theorem shows_typeObject {id : TypeObjectId} {type : TypeCell}
    (hid : g.typeObject? id = some type) :
    Shows (typeObjectVisits g false id) (edgesFrom id type.heldAt type.places) := by
  have hsingleton : Shows (if type.isLazy then [] else
      fieldVisits "type_singleton" type.singleton) (edgesFrom id type.heldAt [.singleton]) :=
    .ite (fun hlazy => .nothing (by simp [TypeCell.heldAt, hlazy]))
      fun hlazy => .field rfl (by simp [TypeCell.heldAt, hlazy])
  have hlast : ∀ {visits}, Shows visits (edgesFrom id type.heldAt [.constructor, .initialShape]) →
      Shows (visits ++ fieldVisits "type_function" type.function)
        (edgesFrom id type.heldAt [.constructor, .initialShape, .interpreted]) :=
    fun hnew => hnew.append (.field rfl rfl)
  rw [typeObjectVisits_eq hid, TypeCell.places]
  refine (shows_properties id type).append
    (.cons (.field rfl rfl) (hsingleton.cons (hlast ?_)))
  cases hscript : type.newScript with
  | none =>
    refine .absent fun location hmem => ?_
    simp only [List.mem_cons, List.not_mem_nil, or_false] at hmem
    rcases hmem with rfl | rfl <;> simp [TypeCell.heldAt, hscript]
  | some newScript =>
    exact .cons (.edge rfl (by simp [TypeCell.heldAt, hscript]))
      (.edge rfl (by simp [TypeCell.heldAt, hscript]))

theorem shows_xml {id : XmlId} {node : XmlCell} (hid : g.xml? id = some node) :
    Shows (xmlVisits g id) (edgesFrom id node.heldAt node.places) := by
  have hnodes : ∀ (nodes : Array XmlId) (index : Nat), nodes[index]?.map Ref.thing =
      (nodes.toList.map fun node => some node.thing)[index]?.join := by
    intro nodes index
    rw [List.getElem?_map, Array.getElem?_toList]
    cases nodes[index]? <;> rfl
  have hkids : Shows (tableVisits "xml_kids" (node.kids.toList.map fun kid => some kid.thing))
      (edgesFrom id node.heldAt ((List.range
        (node.kids.toList.map fun kid => some kid.thing).length).map .kid)) :=
    .table (fun _ => rfl) (hnodes _)
  have hattrs : Shows (tableVisits "xml_attrs" (node.attrs.toList.map fun attr => some attr.thing))
      (edgesFrom id node.heldAt ((List.range
        (node.attrs.toList.map fun attr => some attr.thing).length).map .attr)) :=
    .table (fun _ => rfl) (hnodes _)
  rw [List.length_map, Array.length_toList] at hkids hattrs
  simp only [xmlVisits, hid, XmlCell.places]
  exact (((((Shows.field rfl rfl).append (.field rfl rfl)).append (.field rfl rfl)).append
    (.field rfl rfl)).append hkids).append hattrs

/-! Every place that counts is visited, and none twice. -/

private theorem nodup_run {kind : Kind} (place : Nat → Location kind) (count : Nat)
    (h : ∀ a b, place a = place b → a = b) : ((List.range count).map place).Nodup :=
  List.nodup_range.map fun a b => h a b

private theorem nodup_append_run {kind : Kind} {places : List (Location kind)}
    (hplaces : places.Nodup) (place : Nat → Location kind) (count : Nat)
    (h : ∀ a b, place a = place b → a = b) (hnew : ∀ index, place index ∉ places) :
    (places ++ (List.range count).map place).Nodup := by
  refine List.nodup_append'.mpr ⟨hplaces, nodup_run place count h, fun location hmem hrun => ?_⟩
  obtain ⟨index, -, rfl⟩ := List.mem_map.mp hrun
  exact hnew index hmem

theorem nodup_objectPlaces (object : ObjectCell) : object.places.Nodup := by
  have helements := nodup_run .element object.elements.size (by simp)
  have hslots := nodup_run .slot object.span (by simp)
  simp [ObjectCell.places, List.nodup_append, helements, hslots]

theorem nodup_scriptPlaces (script : ScriptCell) : script.places.Nodup := by
  have hatoms := nodup_run .atom script.atoms.length (by simp)
  have hobjects := nodup_append_run hatoms .literal (script.objects.getD []).length
    (by simp) (by simp)
  have hregexps := nodup_append_run hobjects .regexp (script.regexps.getD []).length
    (by simp) (by simp)
  have hconsts := nodup_append_run hregexps .const (script.consts.getD []).length
    (by simp) (by simp)
  have hfields : [Location.function, .global, .bindings].Nodup := by decide
  have hfront := List.nodup_append'.mpr ⟨hconsts, hfields, by simp [List.disjoint_right]⟩
  have hall := nodup_append_run hfront .closure script.closures.length (by simp) (by simp)
  simpa only [ScriptCell.places, List.append_assoc, List.cons_append, List.nil_append] using hall

theorem nodup_typePlaces (type : TypeCell) : type.places.Nodup := by
  have hproperties := nodup_run .typeProperty type.properties.size (by simp)
  simp [TypeCell.places, List.nodup_append, hproperties]

theorem nodup_xmlPlaces (node : XmlCell) : node.places.Nodup := by
  have hkids := nodup_run .kid node.kids.size (by simp)
  have hattrs := nodup_run .attr node.attrs.size (by simp)
  simp [XmlCell.places, List.nodup_append, hkids, hattrs]

/-- Where an entry of a list is held, there is such an entry. -/
private theorem lt_length {α : Type} {xs : List α} {index : Nat} (read : Option α → Option Thing)
    {thing : Thing} (hnone : read none = none) (h : read xs[index]? = some thing) :
    index < xs.length := by
  by_contra hle
  rw [List.getElem?_eq_none (Nat.le_of_not_lt hle), hnone] at h
  cases h

private theorem lt_size {α : Type} {xs : Array α} {index : Nat} (read : Option α → Option Thing)
    {thing : Thing} (hnone : read none = none) (h : read xs[index]? = some thing) :
    index < xs.size := by
  rw [← Array.getElem?_toList] at h
  simpa using lt_length read hnone h

theorem mem_objectPlaces {object : ObjectCell} {objectClass : Class} {location : Location .object}
    {thing : Thing} (h : object.heldAt objectClass location = some thing) :
    location ∈ object.places := by
  cases location with
  | element index =>
    simp only [ObjectCell.heldAt, Option.ite_none_right_eq_some] at h
    have hlt : index < object.elements.size := lt_size (·.bind Value.thing?) rfl h.2
    simp [ObjectCell.places, hlt]
  | slot index =>
    simp only [ObjectCell.heldAt, Option.ite_none_right_eq_some] at h
    simp [ObjectCell.places, h.1.2]
  | _ => simp [ObjectCell.places]

theorem mem_scriptPlaces {script : ScriptCell} {location : Location .script} {thing : Thing}
    (h : script.heldAt location = some thing) : location ∈ script.places := by
  cases location with
  | atom index => simpa [ScriptCell.places] using lt_length (·.join.map Ref.thing) rfl h
  | literal index =>
    simpa [ScriptCell.places] using lt_length (·.join.map Ref.thing) rfl h
  | regexp index =>
    simpa [ScriptCell.places] using lt_length (·.join.map Ref.thing) rfl h
  | const index => simpa [ScriptCell.places] using lt_length (·.bind Value.thing?) rfl h
  | closure index =>
    simp only [ScriptCell.heldAt, Option.ite_none_right_eq_some] at h
    simpa [ScriptCell.places] using lt_length (·.bind Value.thing?) rfl h.2
  | _ => simp [ScriptCell.places]

theorem mem_typePlaces {type : TypeCell} {location : Location .typeObject} {thing : Thing}
    (h : type.heldAt location = some thing) : location ∈ type.places := by
  cases location with
  | typeProperty index =>
    simp only [TypeCell.heldAt, Option.ite_none_left_eq_some] at h
    have hlt : index < type.properties.size :=
      lt_size (·.join.bind PropertyId.thing?) rfl h.2
    simp [TypeCell.places, hlt]
  | _ => simp [TypeCell.places]

theorem mem_xmlPlaces {node : XmlCell} {location : Location .xml} {thing : Thing}
    (h : node.heldAt location = some thing) : location ∈ node.places := by
  cases location with
  | kid index =>
    have hlt : index < node.kids.size := lt_size (·.map Ref.thing) rfl h
    simp [XmlCell.places, hlt]
  | attr index =>
    have hlt : index < node.attrs.size := lt_size (·.map Ref.thing) rfl h
    simp [XmlCell.places, hlt]
  | _ => simp [XmlCell.places]

/-! What is held is read off the cell. -/

theorem heldAt_object {id : ObjectId} {object : ObjectCell} {objectClass : Class}
    (hid : g.object? id = some object) (hclass : g.classOf? object = some objectClass) :
    g.heldAt id = object.heldAt objectClass :=
  funext fun location => by simp [heldAt, hid, hclass]

theorem heldAt_string {id : StringId} {string : StringCell} (hid : g.string? id = some string) :
    g.heldAt id = string.heldAt :=
  funext fun location => by simp [heldAt, hid]

theorem heldAt_script {id : ScriptId} {script : ScriptCell} (hid : g.script? id = some script) :
    g.heldAt id = script.heldAt :=
  funext fun location => by simp [heldAt, hid]

theorem heldAt_shape {id : ShapeId} {shape : ShapeCell} (hid : g.shape? id = some shape) :
    g.heldAt id = shape.heldAt :=
  funext fun location => by simp [heldAt, hid]

theorem heldAt_baseShape {id : BaseShapeId} {base : BaseShapeCell}
    (hid : g.baseShape? id = some base) : g.heldAt id = base.heldAt :=
  funext fun location => by simp [heldAt, hid]

theorem heldAt_typeObject {id : TypeObjectId} {type : TypeCell}
    (hid : g.typeObject? id = some type) : g.heldAt id = type.heldAt :=
  funext fun location => by simp [heldAt, hid]

theorem heldAt_xml {id : XmlId} {node : XmlCell} (hid : g.xml? id = some node) :
    g.heldAt id = node.heldAt :=
  funext fun location => by simp [heldAt, hid]

/-- The places of a thing that is there, in the order in which they are visited. -/
theorem Sound.exists_places (h : g.Sound) {kind : Kind} {owner : Ref kind}
    (howner : g.contains owner.thing = true) :
    ∃ places : List (Location kind),
      Shows (childVisits g false owner.thing) (edgesFrom owner (g.heldAt owner) places) ∧
      places.Nodup ∧ ∀ location thing, g.heldAt owner location = some thing → location ∈ places := by
  cases kind with
  | object =>
    obtain ⟨object, hid⟩ := exists_object howner
    obtain ⟨objectClass, hclass⟩ := h.exists_class hid
    rw [heldAt_object hid hclass]
    exact ⟨_, shows_object hid hclass, nodup_objectPlaces object, fun _ _ => mem_objectPlaces⟩
  | string =>
    obtain ⟨string, hid⟩ := exists_string howner
    rw [heldAt_string hid]
    refine ⟨_, shows_string hid, by decide, fun location _ _ => ?_⟩
    cases location <;> simp [StringCell.places]
  | script =>
    obtain ⟨script, hid⟩ := exists_script howner
    rw [heldAt_script hid]
    exact ⟨_, shows_script hid, nodup_scriptPlaces script, fun _ _ => mem_scriptPlaces⟩
  | shape =>
    obtain ⟨shape, hid⟩ := exists_shape howner
    rw [heldAt_shape hid]
    refine ⟨_, shows_shape hid, by decide, fun location _ _ => ?_⟩
    cases location <;> simp [ShapeCell.places]
  | baseShape =>
    obtain ⟨base, hid⟩ := exists_baseShape howner
    rw [heldAt_baseShape hid]
    refine ⟨_, shows_baseShape hid, by decide, fun location _ _ => ?_⟩
    cases location <;> simp [BaseShapeCell.places]
  | typeObject =>
    obtain ⟨type, hid⟩ := exists_typeObject howner
    rw [heldAt_typeObject hid]
    exact ⟨_, shows_typeObject hid, nodup_typePlaces type, fun _ _ => mem_typePlaces⟩
  | xml =>
    obtain ⟨node, hid⟩ := exists_xml howner
    rw [heldAt_xml hid]
    exact ⟨_, shows_xml hid, nodup_xmlPlaces node, fun _ _ => mem_xmlPlaces⟩

end Graph

end MarkPhase
