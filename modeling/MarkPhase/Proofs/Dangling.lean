import Mathlib.Algebra.Order.BigOperators.Group.List
import Mathlib.Algebra.Order.Group.Nat
import MarkPhase.Proofs.Ropes
import MarkPhase.Proofs.StringHistories

/-!
References that may lead nowhere. The builders store a reference as it is given, so a shape
may name things that are not there, or not there yet. Two promises hold all the same,
whatever calls have been made: an owned base shape agrees with its twin, and a string is made
of strings that are there. Marking a string looks at nothing but strings, so it goes as it
does on a sound graph.
-/

namespace MarkPhase

/-! Base shapes and their twins. -/

/-- Every owned base shape agrees with its twin. -/
def Graph.Twinned (g : Graph) : Prop :=
  ∀ id base, g.baseShape? id = some base → ∀ twinId, base.twin = some twinId →
    ∃ twin, g.baseShape? twinId = some twin ∧ Graph.Agrees base twin

namespace Graph.Twinned

variable {g : Graph}

theorem of_eq (h : g.Twinned) {g' : Graph} (hbases : g'.baseShapes = g.baseShapes) :
    g'.Twinned := by
  intro id base hid twinId hbase
  rw [baseShape?, hbases] at hid
  obtain ⟨twin, htwin, hagrees⟩ := h id base hid twinId hbase
  exact ⟨twin, by rwa [baseShape?, hbases], hagrees⟩

/-- A base shape is added that agrees with its twin. -/
theorem push (h : g.Twinned) {cell : BaseShapeCell}
    (hcell : ∀ twinId, cell.twin = some twinId →
      ∃ twin, g.baseShape? twinId = some twin ∧ Graph.Agrees cell twin) :
    ({ g with baseShapes := g.baseShapes.push cell } : Graph).Twinned := by
  have hkept : ∀ {id base}, g.baseShape? id = some base →
      ({ g with baseShapes := g.baseShapes.push cell } : Graph).baseShape? id = some base := by
    intro id base hid
    have hlt : id.index < g.baseShapes.size := (Array.getElem?_eq_some_iff.mp hid).1
    rw [baseShape?, Array.getElem?_push, if_neg (Nat.ne_of_lt hlt)]
    exact hid
  intro id base hid twinId hbase
  rw [baseShape?, Array.getElem?_push] at hid
  split at hid
  · obtain rfl := Option.some.inj hid
    obtain ⟨twin, htwin, hagrees⟩ := hcell twinId hbase
    exact ⟨twin, hkept htwin, hagrees⟩
  · obtain ⟨twin, htwin, hagrees⟩ := h id base hid twinId hbase
    exact ⟨twin, hkept htwin, hagrees⟩

end Graph.Twinned

namespace Heap

/-- Twins that agree do so after a call as well, whether or not it fails. -/
theorem twinned_after {heap : Heap} (h : heap.graph.Twinned) (call : Construction) :
    (heap.after call).graph.Twinned := by
  by_cases hkind : call.kind? = some .baseShape
  · cases call with
    | baseShape c declared getter setter parent => exact Graph.Twinned.push h nofun
    | ownedBaseShape twinId =>
      have hcall : Yields (Builder.newOwnedBaseShape twinId) heap
          (fun _ next => next.graph.Twinned) fun _ next => next.graph.Twinned := by
        rw [Builder.newOwnedBaseShape, yields_bind, yields_get, yields_bind]
        cases htwin : heap.graph.baseShape? twinId with
        | none => exact h
        | some twin =>
          refine yields_ite (fun _ => h) fun hunowned => Graph.Twinned.push h fun id hid => ?_
          obtain rfl := Option.some.inj hid
          have hnone : twin.twin = none := by simpa [BaseShapeCell.isOwned] using hunowned
          exact ⟨twin, htwin, hnone, rfl, rfl, rfl, rfl⟩
      have hmade : Yields (Construction.ownedBaseShape twinId).perform heap
          (fun _ next => next.graph.Twinned) fun _ next => next.graph.Twinned :=
        yields_bind.mpr hcall
      exact after_of_yields hmade
    | _ => cases hkind
  · exact h.of_eq (after_of_yields (Construction.spares_perform hkind heap)).cells

/-- Whatever calls are made with whatever arguments, twins agree. -/
theorem twinned_built (history : List Construction) : (built history).graph.Twinned := by
  induction history using List.reverseRecOn with
  | nil => exact fun id base hid => by simp [built, empty, Graph.baseShape?] at hid
  | append_singleton before call ih =>
    simp only [built, List.foldl_append, List.foldl_cons, List.foldl_nil]
    exact twinned_after ih call

end Heap

/-! Strings on a graph of their own. -/

theorem StringCell.exists_id_of_mem_references {cell : StringCell} {thing : Thing}
    (h : thing ∈ cell.references) : ∃ id : StringId, id.thing = thing := by
  unfold references at h
  cases hlayout : cell.layout with
  | linear chars => simp [hlayout] at h
  | dependent base start length =>
    exact ⟨base, by simpa [hlayout, eq_comm] using h⟩
  | rope left right length =>
    simp only [hlayout, List.mem_pair] at h
    exact h.elim (fun heq => ⟨left, heq.symm⟩) fun heq => ⟨right, heq.symm⟩

namespace Graph

variable {g g' : Graph}

/-- The compartments of strings may be missing as well, but they are never looked up. -/
theorem Readable.exists_sound (h : g.Readable) :
    ∃ g' : Graph, g'.Sound ∧ g'.strings = g.strings := by
  let indices := g.strings.toList.map (·.compartment.index)
  let g' : Graph := { compartments := Array.replicate (indices.sum + 1) "", strings := g.strings }
  have hknown : ∀ cell ∈ g.strings, g'.hasCompartment cell.compartment = true := by
    intro cell hcell
    have hmem : cell.compartment.index ∈ indices :=
      List.mem_map.mpr ⟨cell, Array.mem_toList_iff.mpr hcell, rfl⟩
    have hle := List.single_le_sum (fun _ _ => Nat.zero_le _) _ hmem
    exact decide_eq_true (by rw [Array.size_replicate]; omega)
  have hatoms : g'.hasCompartment .atoms = true :=
    decide_eq_true (by rw [Array.size_replicate]; exact Nat.succ_pos _)
  have hempty {α : Type} {law : α → Prop} : ∀ cell ∈ (#[] : Array α), law cell :=
    fun _ hcell => absurd hcell (Array.not_mem_empty _)
  refine ⟨g', ⟨hatoms, hempty, fun cell hcell => ?_, hempty, hempty, hempty, hempty, hempty⟩, rfl⟩
  obtain ⟨index, hindex⟩ := Array.getElem?_of_mem hcell
  have hid : g.string? ⟨index⟩ = some cell := hindex
  obtain ⟨text, hreads⟩ := h _ cell hid
  refine ⟨⟨hknown cell hcell, fun thing hthing => ?_⟩,
    fun base hbase => hreads.flat_base ⟨cell, hid, hbase⟩⟩
  obtain ⟨part, rfl⟩ := StringCell.exists_id_of_mem_references hthing
  obtain ⟨-, _, hpart⟩ := hreads.older ⟨cell, hid, hthing⟩
  exact hpart.contains

/-- The string has the other for a part or for its base. -/
def HasPart (g : Graph) (id part : StringId) : Prop :=
  ∃ cell, g.string? id = some cell ∧ part.thing ∈ cell.references

/-- Some rope that a string is made of forks. -/
def HoldsFork (g : Graph) (id : StringId) : Prop :=
  ∃ rope, Relation.ReflTransGen g.HasPart id rope ∧ g.Forks rope

theorem HasPart.of_eq {id part : StringId} (h : g'.HasPart id part)
    (hstrings : g'.strings = g.strings) : g.HasPart id part := by
  rwa [HasPart, string?, hstrings] at h

theorem Forks.of_eq {rope : StringId} (h : g'.Forks rope) (hstrings : g'.strings = g.strings) :
    g.Forks rope := by
  simp only [Forks, IsRope, string?, hstrings] at h
  exact h

/-- On a sound graph the children of strings are their parts and their bases. -/
theorem Sound.exists_parts (h : g.Sound) {root : StringId} (hroot : g.contains root.thing = true)
    {thing : Thing} (hpath : Relation.ReflTransGen g.Child root.thing thing) :
    ∃ id : StringId, id.thing = thing ∧ g.contains id.thing = true ∧
      Relation.ReflTransGen g.HasPart root id := by
  induction hpath with
  | refl => exact ⟨root, rfl, hroot, .refl⟩
  | tail _ hchild ih =>
    obtain ⟨id, rfl, hid, hparts⟩ := ih
    obtain ⟨cell, hcell⟩ := exists_string hid
    have hmem := (h.child_string hcell).mp hchild
    obtain ⟨part, rfl⟩ := StringCell.exists_id_of_mem_references hmem
    exact ⟨part, rfl, (h.string hcell).1.2 _ hmem, hparts.tail ⟨cell, hcell, hmem⟩⟩

/-- A fork that is found on a sound graph is one of the strings alone. -/
theorem LeadsToFork.holdsFork {id : StringId} (hfork : g'.LeadsToFork id.thing) (h : g'.Sound)
    (hid : g'.contains id.thing = true) (hstrings : g'.strings = g.strings) : g.HoldsFork id := by
  obtain ⟨rope, hpath, hforks⟩ := hfork
  obtain ⟨other, hthing, -, hparts⟩ := h.exists_parts hid hpath
  obtain rfl := Ref.thing_injective hthing
  have hsame := Relation.ReflTransGen.mono (fun _ _ hpart => HasPart.of_eq hpart hstrings) _ _
    hparts
  exact ⟨other, hsame, hforks.of_eq hstrings⟩

end Graph

namespace ChronM

variable {ω : Type} {g g' : Graph} (hstrings : g'.strings = g.strings)

include hstrings

private theorem string?_eq (id : StringId) : g'.string? id = g.string? id := by
  rw [Graph.string?, Graph.string?, hstrings]

private theorem attemptString_eq (parent : Option Thing) (id : StringId) :
    (attemptString g' parent id : ChronM ω Bool) = attemptString g parent id := by
  have hcompartment : g'.compartmentOf? id.thing = g.compartmentOf? id.thing := by
    change (g'.strings[id.index]?).map _ = (g.strings[id.index]?).map _
    rw [hstrings]
  rw [attemptString, attemptString, attempt, attempt, MarkM.claim, MarkM.claim, hcompartment]

private theorem scanLinear_eq (steps : Nat) (id : StringId) :
    (scanLinear g' steps id : ChronM ω Unit) = scanLinear g steps id := by
  induction steps generalizing id with
  | zero => rfl
  | succ steps ih =>
    simp only [scanLinear, string?_eq hstrings, attemptString_eq hstrings, ih]

private theorem enterPart_eq (parent : Option Thing) (part : StringId) :
    (enterPart g' parent part : ChronM ω (Option StringId)) = enterPart g parent part := by
  simp only [enterPart, string?_eq hstrings, attemptString_eq hstrings, scanLinear_eq hstrings,
    hstrings]

private theorem scanRope_eq (depth steps : Nat) (id : StringId) :
    (scanRope g' depth steps id : ChronM ω Unit) = scanRope g depth steps id := by
  induction steps generalizing id with
  | zero => rfl
  | succ steps ih =>
    simp only [scanRope, string?_eq hstrings, enterPart_eq hstrings, ih]

/-- Marking a string depends on the strings alone. -/
theorem pushString_eq (parent : Option Thing) (id : StringId) :
    (pushString g' parent id : ChronM ω Unit) = pushString g parent id := by
  simp only [pushString, string?_eq hstrings, attemptString_eq hstrings, scanLinear_eq hstrings,
    scanRope_eq hstrings, hstrings]

end ChronM

/-- Where no rope that a string is made of has two ropes for its parts, nothing is offered to
the stack. -/
theorem Graph.Readable.pushString_of_unforked {ω : Type} {g : Graph} (h : g.Readable)
    {id : StringId} (hid : g.contains id.thing = true) {s : Marking ω} (hstack : s.stack.Tidy)
    (hdelayed : s.delayed.Tidy) (hunforked : ¬ g.HoldsFork id) :
    ∃ c, ChronM.pushString g none id { toMarking := s } = .ok () c ∧
      MarkM.pushString g id s = .ok () c.toMarking ∧ c.Aloof s := by
  obtain ⟨g', hsound, hstrings⟩ := h.exists_sound
  have hid' : g'.contains id.thing = true := by
    obtain ⟨cell, hcell⟩ := exists_string hid
    rw [← ChronM.string?_eq hstrings] at hcell
    exact contains_of_getElem? rfl hcell
  have hunforked' : ¬ g'.LeadsToFork id.thing := fun hfork =>
    hunforked (hfork.holdsFork hsound hid' hstrings)
  obtain ⟨c, hrun, -, haloof⟩ :=
    hsound.pushString_of_unforked (s := s) hid' hstack hdelayed hunforked'
  rw [ChronM.pushString_eq hstrings] at hrun
  exact ⟨c, hrun, (ChronM.erases_pushString g none id).of_ok hrun, haloof⟩

/-! What a lineage names. -/

namespace Graph

variable {g : Graph} {top : ShapeId} {thing : Thing} {fault : Fault}

/-- The things that are named when the lineage of a shape is walked: the shape itself and what
the cells of named shapes and base shapes refer to, whether or not it is there. -/
inductive Names (g : Graph) (top : ShapeId) : Thing → Prop
  | top : Names g top top.thing
  | shape {id : ShapeId} {cell : ShapeCell} {thing : Thing} : Names g top id.thing →
      g.shape? id = some cell → thing ∈ cell.references → Names g top thing
  | baseShape {id : BaseShapeId} {cell : BaseShapeCell} {thing : Thing} : Names g top id.thing →
      g.baseShape? id = some cell → thing ∈ cell.references → Names g top thing

/-- The fault is for a named thing that is not there, or whose compartment is not there. -/
inductive Dangles (g : Graph) (top : ShapeId) : Fault → Prop
  | missing {thing : Thing} : g.Names top thing → g.contains thing = false →
      Dangles g top .outOfBounds
  | unknown {thing : Thing} : g.Names top thing → g.contains thing = false →
      Dangles g top (.unknownThing thing)
  | foreign {thing : Thing} {compartment : CompartmentId} : g.Names top thing →
      g.compartmentOf? thing = some compartment → g.hasCompartment compartment = false →
      Dangles g top (.foreignCompartment thing compartment)

/-- No marking call objects to a thing but because of an id to which nothing belongs. -/
theorem Names.dangles_of_objection (h : g.Names top thing)
    (hfault : g.objection? thing = some fault) : g.Dangles top fault := by
  unfold objection? at hfault
  cases hthing : g.compartmentOf? thing with
  | none =>
    obtain rfl : Fault.unknownThing thing = fault := by simpa [hthing] using hfault
    refine .unknown h ?_
    rw [← g.isSome_compartmentOf? thing, hthing]
    rfl
  | some compartment =>
    by_cases hknown : g.hasCompartment compartment = true
    · simp [hthing, hknown] at hfault
    · obtain rfl : Fault.foreignCompartment thing compartment = fault := by
        simpa [hthing, hknown] using hfault
      exact .foreign h hthing (Bool.eq_false_of_not_eq_true hknown)

theorem contains_eq_false_of_shape {id : ShapeId} (h : g.shape? id = none) :
    g.contains id.thing = false := by
  refine Bool.eq_false_of_not_eq_true fun hcontains => ?_
  obtain ⟨cell, hcell⟩ := exists_shape hcontains
  rw [h] at hcell
  cases hcell

theorem contains_eq_false_of_baseShape {id : BaseShapeId} (h : g.baseShape? id = none) :
    g.contains id.thing = false := by
  refine Bool.eq_false_of_not_eq_true fun hcontains => ?_
  obtain ⟨cell, hcell⟩ := exists_baseShape hcontains
  rw [h] at hcell
  cases hcell

/-! The references of a shape. -/

theorem Names.base {id : ShapeId} {cell : ShapeCell} (h : g.Names top id.thing)
    (hid : g.shape? id = some cell) : g.Names top cell.base.thing :=
  .shape h hid (by simp [ShapeCell.references])

theorem Names.property {id : ShapeId} {cell : ShapeCell} (h : g.Names top id.thing)
    (hid : g.shape? id = some cell) {property : Thing}
    (hproperty : cell.property.thing? = some property) : g.Names top property :=
  .shape h hid (by simp [ShapeCell.references, hproperty])

theorem Names.previous {id previous : ShapeId} {cell : ShapeCell} (h : g.Names top id.thing)
    (hid : g.shape? id = some cell) (hprevious : cell.previous = some previous) :
    g.Names top previous.thing :=
  .shape h hid (by simp [ShapeCell.references, hprevious])

end Graph

end MarkPhase
