import Mathlib.Algebra.Group.Nat.Defs
import Mathlib.Data.List.Nodup
import MarkPhase.Graph

/-!
Graphs on which every reference leads somewhere. A cell stores references to
things and the number of a compartment; all of them have to be there. Beyond
that a base of a dependent string is not a rope, an owned base shape agrees with
a twin that is not owned, and the slots below the span of an object are stored.
-/

namespace MarkPhase

/-- The thing of an optional reference, if there is one. -/
def refThings {kind : Kind} (ref : Option (Ref kind)) : List Thing :=
  (ref.map Ref.thing).toList

@[simp]
theorem mem_refThings {kind : Kind} {ref : Option (Ref kind)} {thing : Thing} :
    thing ∈ refThings ref ↔ ∃ id, ref = some id ∧ id.thing = thing := by
  simp [refThings]

theorem toWord_of_lt {n : Nat} (h : n < 2 ^ 32) : toWord n = n :=
  Nat.mod_eq_of_lt h

theorem ValueRange.inWords_eq_self (range : ValueRange) (hle : range.start ≤ range.stop)
    (hlt : range.stop < 2 ^ 32) : range.inWords = range := by
  rw [inWords, toWord_of_lt hlt, toWord_of_lt (Nat.lt_of_le_of_lt hle hlt)]

namespace ObjectCell

/-- Every value the object holds, in use or not. -/
def values (object : ObjectCell) : List Value :=
  object.inlineSlots.toList ++ (object.overflow.getD #[]).toList ++ object.elements.toList

/-- Every thing the object refers to. -/
def references (object : ObjectCell) : List Thing :=
  object.type.thing :: object.shape.thing ::
    (object.privateThing.toList ++ object.values.filterMap Value.thing?)

/-- Every slot below the span is stored, and the span is a word. -/
structure Stored (object : ObjectCell) : Prop where
  span_le : object.span ≤ object.inlineSlots.size + (object.overflow.getD #[]).size
  span_lt : object.span < 2 ^ 32

/-- Slots in use lie below the span. -/
theorem regionSize_le_span (object : ObjectCell) {region : Region} (h : region ≠ .elements) :
    object.regionSize region ≤ object.span := by
  cases region with
  | fixed => exact Nat.min_le_left _ _
  | dynamic =>
    simp only [regionSize]
    cases object.overflow with
    | some slots => exact Nat.le_trans (Nat.min_le_left _ _) (Nat.sub_le _ _)
    | none => exact Nat.zero_le _
  | elements => exact absurd rfl h

/-- A new object has no slot in use. -/
theorem stored_make (compartment : CompartmentId) (type : TypeObjectId) (shape : ShapeId)
    (fixed : Nat) : (make compartment type shape fixed).Stored :=
  ⟨Nat.zero_le _, Nat.two_pow_pos 32⟩

end ObjectCell

namespace StringCell

def references (string : StringCell) : List Thing :=
  match string.layout with
  | .linear _ => []
  | .dependent base _ _ => [base.thing]
  | .rope left right _ => [left.thing, right.thing]

theorem references_of_linear {string : StringCell} (h : string.isRope = false) :
    string.references = refThings string.base? := by
  unfold references base? isRope at *
  cases hlayout : string.layout <;> simp_all [refThings]

theorem references_of_rope {string : StringCell} (h : string.isRope = true) :
    ∃ left right, string.parts? = some (left, right) ∧
      string.references = [left.thing, right.thing] := by
  unfold references parts? isRope at *
  cases hlayout : string.layout <;> simp_all

end StringCell

namespace ShapeCell

def references (shape : ShapeCell) : List Thing :=
  shape.base.thing :: (shape.property.thing?.toList ++ refThings shape.previous)

end ShapeCell

namespace BaseShapeCell

def references (base : BaseShapeCell) : List Thing :=
  refThings base.getter ++ refThings base.setter ++ refThings base.parent ++
    refThings base.twin

end BaseShapeCell

namespace TypeCell

def references (type : TypeCell) : List Thing :=
  type.properties.toList.filterMap (fun property => property.bind PropertyId.thing?) ++
    refThings type.proto ++ refThings type.singleton ++ refThings type.function ++
    type.newScript.toList.flatMap fun newScript =>
      [newScript.function.thing, newScript.shape.thing]

end TypeCell

namespace ScriptCell

def references (script : ScriptCell) : List Thing :=
  script.atoms.flatMap refThings ++ (script.objects.getD []).flatMap refThings ++
    (script.regexps.getD []).flatMap refThings ++
    (script.consts.getD []).filterMap Value.thing? ++ refThings script.function ++
    refThings script.global ++ refThings script.bindings ++
    script.closures.filterMap Value.thing?

end ScriptCell

namespace XmlCell

def references (node : XmlCell) : List Thing :=
  refThings node.object ++ refThings node.name ++ refThings node.value ++
    refThings node.parent ++ node.kids.toList.map Ref.thing ++ node.attrs.toList.map Ref.thing

end XmlCell

namespace Graph

/-- A compartment and things that are all there. -/
def Knows (g : Graph) (compartment : CompartmentId) (things : List Thing) : Prop :=
  g.hasCompartment compartment = true ∧ ∀ thing ∈ things, g.contains thing = true

/-- The base of a dependent string has characters of its own or from its base. -/
def KnowsString (g : Graph) (cell : StringCell) : Prop :=
  g.Knows cell.compartment cell.references ∧
    ∀ base, cell.base? = some base → ∃ below, g.string? base = some below ∧ below.isRope = false

/-- What an owned base shape repeats of its twin. -/
structure Agrees (base twin : BaseShapeCell) : Prop where
  unowned : twin.twin = none
  compartment : twin.compartment = base.compartment
  getter : twin.getter = base.getter
  setter : twin.setter = base.setter
  parent : twin.parent = base.parent

def KnowsBaseShape (g : Graph) (cell : BaseShapeCell) : Prop :=
  g.Knows cell.compartment cell.references ∧
    ∀ id, cell.twin = some id → ∃ twin, g.baseShape? id = some twin ∧ Agrees cell twin

/-- Every reference of the cells of `part` leads to a thing of `g`, and what the
builders promise about strings, base shapes and slots holds of them. -/
structure Supports (g part : Graph) : Prop where
  atoms : g.hasCompartment .atoms = true
  objects : ∀ cell ∈ part.objects, g.Knows cell.compartment cell.references ∧ cell.Stored
  strings : ∀ cell ∈ part.strings, g.KnowsString cell
  scripts : ∀ cell ∈ part.scripts, g.Knows cell.compartment cell.references
  shapes : ∀ cell ∈ part.shapes, g.Knows cell.compartment cell.references
  baseShapes : ∀ cell ∈ part.baseShapes, g.KnowsBaseShape cell
  typeObjects : ∀ cell ∈ part.typeObjects, g.Knows cell.compartment cell.references
  xmlNodes : ∀ cell ∈ part.xmlNodes, g.Knows cell.compartment cell.references

/-- A graph that supports itself. -/
def Sound (g : Graph) : Prop :=
  g.Supports g

/-- A word can count the elements of every object. -/
def WordSized (g : Graph) : Prop :=
  ∀ cell ∈ g.objects, cell.elements.size < 2 ^ 32

instance (g : Graph) : Decidable g.WordSized :=
  inferInstanceAs (Decidable (∀ cell ∈ g.objects, cell.elements.size < 2 ^ 32))

theorem contains_iff_exists (g : Graph) (thing : Thing) :
    g.contains thing = true ↔ ∃ compartment, g.compartmentOf? thing = some compartment := by
  rw [← g.isSome_compartmentOf? thing, Option.isSome_iff_exists]

theorem compartmentOf?_eq_none {g : Graph} {thing : Thing} (h : ¬ g.contains thing = true) :
    g.compartmentOf? thing = none := by
  rw [← g.isSome_compartmentOf? thing] at h
  exact Option.not_isSome_iff_eq_none.mp h

theorem mem_things (g : Graph) {thing : Thing} :
    thing ∈ g.things ↔ g.contains thing = true := by
  obtain ⟨kind, index⟩ := thing
  simp [things, contains, Kind.mem_all]

theorem nodup_things (g : Graph) : g.things.Nodup := by
  unfold things
  rw [List.nodup_flatMap]
  refine ⟨fun kind _ => ?_, ?_⟩
  · exact List.nodup_range.map fun a b h => by simpa using h
  · have hkinds : Kind.all.Nodup := by decide
    refine hkinds.imp fun hne => ?_
    intro thing hfirst hsecond
    obtain ⟨_, _, rfl⟩ := List.mem_map.mp hfirst
    obtain ⟨_, _, heq⟩ := List.mem_map.mp hsecond
    exact hne (congrArg Thing.kind heq).symm

theorem length_things (g : Graph) : g.things.length = g.thingCount := by
  simp [things, thingCount, Kind.all, population]
  omega

section LookUps

variable {g : Graph}

private theorem exists_cell {α : Type} {cells : Array α} {index : Nat}
    (h : decide (index < cells.size) = true) : ∃ cell, cells[index]? = some cell := by
  have hlt : index < cells.size := of_decide_eq_true h
  exact ⟨cells[index], Array.getElem?_eq_getElem hlt⟩

theorem exists_object {id : ObjectId} (h : g.contains id.thing = true) :
    ∃ cell, g.object? id = some cell :=
  exists_cell h

theorem exists_string {id : StringId} (h : g.contains id.thing = true) :
    ∃ cell, g.string? id = some cell :=
  exists_cell h

theorem exists_script {id : ScriptId} (h : g.contains id.thing = true) :
    ∃ cell, g.script? id = some cell :=
  exists_cell h

theorem exists_shape {id : ShapeId} (h : g.contains id.thing = true) :
    ∃ cell, g.shape? id = some cell :=
  exists_cell h

theorem exists_baseShape {id : BaseShapeId} (h : g.contains id.thing = true) :
    ∃ cell, g.baseShape? id = some cell :=
  exists_cell h

theorem exists_typeObject {id : TypeObjectId} (h : g.contains id.thing = true) :
    ∃ cell, g.typeObject? id = some cell :=
  exists_cell h

theorem exists_xml {id : XmlId} (h : g.contains id.thing = true) :
    ∃ cell, g.xml? id = some cell :=
  exists_cell h

/-- A thing whose cell can be looked up is there. -/
theorem contains_of_getElem? {kind : Kind} {id : Ref kind} {α : Type} {cells : Array α} {cell : α}
    (hcells : cells.size = g.population kind) (hcell : cells[id.index]? = some cell) :
    g.contains id.thing = true := by
  obtain ⟨hlt, -⟩ := Array.getElem?_eq_some_iff.mp hcell
  exact decide_eq_true (hcells ▸ hlt)

end LookUps

namespace Sound

variable {g : Graph}

theorem object (h : g.Sound) {id : ObjectId} {cell : ObjectCell} (hid : g.object? id = some cell) :
    g.Knows cell.compartment cell.references ∧ cell.Stored :=
  h.objects cell (Array.mem_of_getElem? hid)

theorem string (h : g.Sound) {id : StringId} {cell : StringCell} (hid : g.string? id = some cell) :
    g.KnowsString cell :=
  h.strings cell (Array.mem_of_getElem? hid)

theorem script (h : g.Sound) {id : ScriptId} {cell : ScriptCell} (hid : g.script? id = some cell) :
    g.Knows cell.compartment cell.references :=
  h.scripts cell (Array.mem_of_getElem? hid)

theorem shape (h : g.Sound) {id : ShapeId} {cell : ShapeCell} (hid : g.shape? id = some cell) :
    g.Knows cell.compartment cell.references :=
  h.shapes cell (Array.mem_of_getElem? hid)

theorem baseShape (h : g.Sound) {id : BaseShapeId} {cell : BaseShapeCell}
    (hid : g.baseShape? id = some cell) : g.KnowsBaseShape cell :=
  h.baseShapes cell (Array.mem_of_getElem? hid)

theorem typeObject (h : g.Sound) {id : TypeObjectId} {cell : TypeCell}
    (hid : g.typeObject? id = some cell) : g.Knows cell.compartment cell.references :=
  h.typeObjects cell (Array.mem_of_getElem? hid)

theorem xml (h : g.Sound) {id : XmlId} {cell : XmlCell} (hid : g.xml? id = some cell) :
    g.Knows cell.compartment cell.references :=
  h.xmlNodes cell (Array.mem_of_getElem? hid)

/-- A word counts the values of every region. -/
theorem regionSize_lt (h : g.Sound) (hwords : g.WordSized) {id : ObjectId} {cell : ObjectCell}
    (hid : g.object? id = some cell) (region : Region) : cell.regionSize region < 2 ^ 32 := by
  by_cases hregion : region = .elements
  · exact hregion ▸ hwords cell (Array.mem_of_getElem? hid)
  · exact Nat.lt_of_le_of_lt (cell.regionSize_le_span hregion) (h.object hid).2.span_lt

/-- Where a word counts the values of every region, the ends of a range are words. -/
theorem inWords_eq (h : g.Sound) (hwords : g.WordSized) {range : ValueRange} {cell : ObjectCell}
    (howner : g.object? range.owner = some cell) (hstop : range.stop ≤ cell.regionSize range.region)
    (hle : range.start ≤ range.stop) : range.inWords = range :=
  range.inWords_eq_self hle
    (Nat.lt_of_le_of_lt hstop (h.regionSize_lt hwords howner range.region))

/-- An object of a sound graph has a class. -/
theorem exists_class (h : g.Sound) {id : ObjectId} {cell : ObjectCell}
    (hid : g.object? id = some cell) : ∃ objectClass, g.classOf? cell = some objectClass := by
  have hshape : g.contains cell.shape.thing = true :=
    (h.object hid).1.2 _ (by simp [ObjectCell.references])
  obtain ⟨shape, hs⟩ := exists_shape hshape
  have hbase : g.contains shape.base.thing = true :=
    (h.shape hs).2 _ (by simp [ShapeCell.references])
  obtain ⟨base, hb⟩ := exists_baseShape hbase
  exact ⟨base.objectClass, by simp [classOf?, hs, hb]⟩

/-- No marking call objects to a thing of a sound graph. -/
theorem objection?_eq_none (h : g.Sound) {thing : Thing} (hthing : g.contains thing = true) :
    g.objection? thing = none := by
  obtain ⟨compartment, hc⟩ := (g.contains_iff_exists thing).mp hthing
  have hknown : g.hasCompartment compartment = true := by
    obtain ⟨kind, index⟩ := thing
    cases kind
    case object =>
      obtain ⟨cell, hcell, rfl⟩ := Option.map_eq_some_iff.mp hc
      exact (h.objects cell (Array.mem_of_getElem? hcell)).1.1
    case string =>
      obtain ⟨cell, hcell, rfl⟩ := Option.map_eq_some_iff.mp hc
      exact (h.strings cell (Array.mem_of_getElem? hcell)).1.1
    case script =>
      obtain ⟨cell, hcell, rfl⟩ := Option.map_eq_some_iff.mp hc
      exact (h.scripts cell (Array.mem_of_getElem? hcell)).1
    case shape =>
      obtain ⟨cell, hcell, rfl⟩ := Option.map_eq_some_iff.mp hc
      exact (h.shapes cell (Array.mem_of_getElem? hcell)).1
    case baseShape =>
      obtain ⟨cell, hcell, rfl⟩ := Option.map_eq_some_iff.mp hc
      exact (h.baseShapes cell (Array.mem_of_getElem? hcell)).1.1
    case typeObject =>
      obtain ⟨cell, hcell, rfl⟩ := Option.map_eq_some_iff.mp hc
      exact (h.typeObjects cell (Array.mem_of_getElem? hcell)).1
    case xml =>
      obtain ⟨cell, hcell, rfl⟩ := Option.map_eq_some_iff.mp hc
      exact (h.xmlNodes cell (Array.mem_of_getElem? hcell)).1
  simp [objection?, hc, hknown]

end Sound

end Graph

end MarkPhase
