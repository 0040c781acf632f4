import MarkPhase.Proofs.Dangling
import MarkPhase.Proofs.Extensions

/-!
Heaps completed. The builders store references as they are given, and some may lead nowhere.
With enough more things of every kind behind those of a heap, all of them lead somewhere, and
what the builders promise of strings, of twins and of slots still holds. So any heap at all
is the front part of a sound one.
-/

namespace MarkPhase

/-! Slots. -/

/-- The slots below the span of every object are stored. -/
def Graph.StoresSlots (g : Graph) : Prop :=
  ∀ cell ∈ g.objects, cell.Stored

/-- Slots that are stored are so on the next heap as well. -/
def Heap.KeepsSlots (heap next : Heap) : Prop :=
  heap.graph.StoresSlots → next.graph.StoresSlots

instance : IsPreorder Heap Heap.KeepsSlots where
  refl _ := id
  trans _ _ _ h h' := h' ∘ h

namespace Builder

open Heap (KeepsSlots)

theorem keepsSlots_newObject (compartment : CompartmentId) (type : TypeObjectId)
    (shape : ShapeId) (fixed : Nat) :
    Respects KeepsSlots (newObject compartment type shape fixed) := by
  intro heap
  rw [newObject, yields_bind]
  refine yields_allocate (fun _ h => ?_) fun _ _ => id
  exact Graph.forall_mem_push h (ObjectCell.stored_make compartment type shape fixed)

theorem keepsSlots_editObject (object : ObjectId) {change : ObjectCell → ObjectCell} {heap : Heap}
    (hchange : ∀ cell, heap.graph.object? object = some cell → cell.Stored →
      (change cell).Stored) :
    Yields (editObject object change) heap (fun _ => heap.KeepsSlots) fun _ => heap.KeepsSlots := by
  rw [editObject, edit, yields_bind, yields_get]
  refine yields_ite (fun _ h => ?_) fun _ => id
  exact Graph.forall_mem_modify h fun cell hcell =>
    hchange cell hcell (h cell (Array.mem_of_getElem? hcell))

theorem keepsSlots_setSlot (object : ObjectId) (index : Nat) (value : Value) :
    Respects KeepsSlots (setSlot object index value) := by
  intro heap
  simp only [setSlot, yields_bind, yields_get]
  cases hcell : heap.graph.object? object with
  | none => exact id
  | some cell =>
    rw [yields_need_some]
    refine yields_ite (fun _ => id) fun _ => ?_
    rw [yields_bind]
    refine yields_allocate (fun _ => ?_) fun _ _ => id
    cases hwritten : cell.write? index value with
    | none => exact id
    | some written =>
      refine keepsSlots_editObject object fun other hother hstored => ?_
      obtain rfl : cell = other := Option.some.inj (hcell.symm.trans hother)
      exact (ObjectCell.stored_write? hwritten hstored).2.1

end Builder

/-- Whatever the call and its arguments, slots stay stored. -/
theorem Construction.keepsSlots_perform (call : Construction) :
    Respects Heap.KeepsSlots call.perform := by
  by_cases hkind : call.kind? = some .object
  · have hedit : ∀ (owner : ObjectId) {change : ObjectCell → ObjectCell},
        (∀ cell, cell.Stored → (change cell).Stored) →
        Respects Heap.KeepsSlots (done (Builder.editObject owner change)) :=
      fun owner change hchange => .bind (fun _ => Builder.keepsSlots_editObject owner
        fun cell _ => hchange cell) fun _ => .pure _
    cases call with
    | object c type shape fixed =>
      exact .bind (Builder.keepsSlots_newObject c type shape fixed) fun _ => .pure _
    | slot owner index value =>
      exact .bind (Builder.keepsSlots_setSlot owner index value) fun _ => .pure _
    | objectShape owner shape => exact hedit owner fun _ h => ⟨h.span_le, h.span_lt⟩
    | element owner value => exact hedit owner fun _ h => ⟨h.span_le, h.span_lt⟩
    | privateThing owner thing => exact hedit owner fun _ h => ⟨h.span_le, h.span_lt⟩
    | _ => cases hkind
  · have hspares := spares_perform hkind
    have hkeeps : ∀ {heap next : Heap}, Heap.Spares .object heap next → heap.KeepsSlots next := by
      intro heap next hsame h cell hcell
      have hobjects : next.graph.objects = heap.graph.objects := hsame.cells
      exact h cell (hobjects ▸ hcell)
    exact fun heap => (hspares heap).mono (fun _ _ => hkeeps) fun _ _ => hkeeps

/-- Whatever calls are made with whatever arguments, slots are stored. -/
theorem Heap.storesSlots_built (history : List Construction) :
    (built history).graph.StoresSlots := by
  induction history using List.reverseRecOn with
  | nil => exact fun cell hcell => absurd hcell (Array.not_mem_empty cell)
  | append_singleton before call ih =>
    simp only [built, List.foldl_append, List.foldl_cons, List.foldl_nil]
    exact after_of_yields (call.keepsSlots_perform (built before)) ih

/-! Things behind those of a graph. -/

namespace Graph

/-- The number of a compartment and those of things. -/
def numbers (compartment : CompartmentId) (things : List Thing) : List Nat :=
  compartment.index :: things.map Thing.index

/-- Whatever the cells of the graph name has a number below the bound. -/
structure NamesBelow (g : Graph) (bound : Nat) : Prop where
  objects : ∀ cell ∈ g.objects, ∀ number ∈ numbers cell.compartment cell.references, number < bound
  strings : ∀ cell ∈ g.strings, ∀ number ∈ numbers cell.compartment cell.references, number < bound
  scripts : ∀ cell ∈ g.scripts, ∀ number ∈ numbers cell.compartment cell.references, number < bound
  shapes : ∀ cell ∈ g.shapes, ∀ number ∈ numbers cell.compartment cell.references, number < bound
  baseShapes : ∀ cell ∈ g.baseShapes, ∀ number ∈ numbers cell.compartment cell.references,
    number < bound
  typeObjects : ∀ cell ∈ g.typeObjects, ∀ number ∈ numbers cell.compartment cell.references,
    number < bound
  xmlNodes : ∀ cell ∈ g.xmlNodes, ∀ number ∈ numbers cell.compartment cell.references,
    number < bound

section Padded

variable (g : Graph) (count : Nat)

/-- The numbers of all that the cells of a graph name. -/
def named : List Nat :=
  List.flatten [
    g.objects.toList.flatMap fun cell => numbers cell.compartment cell.references,
    g.strings.toList.flatMap fun cell => numbers cell.compartment cell.references,
    g.scripts.toList.flatMap fun cell => numbers cell.compartment cell.references,
    g.shapes.toList.flatMap fun cell => numbers cell.compartment cell.references,
    g.baseShapes.toList.flatMap fun cell => numbers cell.compartment cell.references,
    g.typeObjects.toList.flatMap fun cell => numbers cell.compartment cell.references,
    g.xmlNodes.toList.flatMap fun cell => numbers cell.compartment cell.references]

/-- The graph with more compartments and more things of every kind behind its own. These name
nothing but the first thing of a kind. -/
def padded : Graph where
  compartments := g.compartments ++ Array.replicate count ""
  objects := g.objects ++ Array.replicate count (.make .atoms ⟨0⟩ ⟨0⟩ 0)
  strings := g.strings ++ Array.replicate count ⟨.atoms, .linear ""⟩
  scripts := g.scripts ++ Array.replicate count { compartment := .atoms }
  shapes := g.shapes ++ Array.replicate count ⟨.atoms, ⟨0⟩, .void, none⟩
  baseShapes := g.baseShapes ++ Array.replicate count ⟨.atoms, none, none, none, none, none⟩
  typeObjects := g.typeObjects ++ Array.replicate count
    { compartment := .atoms, properties := #[], proto := none, function := none, newScript := none }
  xmlNodes := g.xmlNodes ++ Array.replicate count { compartment := .atoms, kind := .list }
  atoms := g.atoms

theorem exists_namesBelow : ∃ bound, g.NamesBelow bound ∧ 0 < bound := by
  refine ⟨g.named.sum + 1, ?_, Nat.succ_pos _⟩
  have hlt : ∀ {α : Type} {cells : Array α} {found : α → List Nat},
      cells.toList.flatMap found ⊆ g.named →
      ∀ cell ∈ cells, ∀ number ∈ found cell, number < g.named.sum + 1 := by
    intro α cells found hsubset cell hcell number hnumber
    have hmem := hsubset (List.mem_flatMap.mpr ⟨cell, Array.mem_toList_iff.mpr hcell, hnumber⟩)
    exact Nat.lt_succ_of_le (List.single_le_sum (fun _ _ => Nat.zero_le _) _ hmem)
  constructor <;>
    refine hlt fun number hnumber => List.mem_flatten.mpr ⟨_, ?_, hnumber⟩ <;>
    simp

theorem extends_padded : g.Extends (g.padded count) := by
  constructor <;> rw [padded, Array.toList_append] <;> exact List.prefix_append _ _

end Padded

variable {g : Graph} {count : Nat}

/-- There are enough things behind those of the graph for whatever has a small number. -/
theorem knows_padded {compartment : CompartmentId} {things : List Thing}
    (h : ∀ number ∈ numbers compartment things, number < count) :
    (g.padded count).Knows compartment things := by
  have hsize : (g.padded count).compartments.size = g.compartments.size + count := by
    simp [padded]
  have hpopulation : ∀ kind, (g.padded count).population kind = g.population kind + count := by
    intro kind
    cases kind <;> simp [padded, population]
  refine ⟨decide_eq_true ?_, fun thing hthing => decide_eq_true ?_⟩
  · have hlt := h compartment.index (List.mem_cons_self ..)
    omega
  · have hlt := h thing.index (List.mem_cons_of_mem _ (List.mem_map_of_mem hthing))
    rw [hpopulation]
    omega

theorem knowsString_padded (hreads : g.Readable) (hbelow : g.NamesBelow count)
    {cell : StringCell} (hcell : cell ∈ g.strings) : (g.padded count).KnowsString cell := by
  obtain ⟨index, hindex⟩ := Array.getElem?_of_mem hcell
  have hid : g.string? ⟨index⟩ = some cell := hindex
  obtain ⟨text, htext⟩ := hreads _ cell hid
  refine ⟨knows_padded (hbelow.strings cell hcell), fun base hbase => ?_⟩
  obtain ⟨below, hbase, hrope⟩ := htext.flat_base ⟨cell, hid, hbase⟩
  exact ⟨below, (g.extends_padded count).string? base below hbase, hrope⟩

theorem knowsBaseShape_padded (htwinned : g.Twinned) (hbelow : g.NamesBelow count)
    {cell : BaseShapeCell} (hcell : cell ∈ g.baseShapes) :
    (g.padded count).KnowsBaseShape cell := by
  obtain ⟨index, hindex⟩ := Array.getElem?_of_mem hcell
  refine ⟨knows_padded (hbelow.baseShapes cell hcell), fun twinId hid => ?_⟩
  obtain ⟨twin, htwin, hagrees⟩ := htwinned ⟨index⟩ cell hindex twinId hid
  exact ⟨twin, (g.extends_padded count).baseShape? twinId twin htwin, hagrees⟩

private theorem forall_mem_append_replicate {α : Type} {cells : Array α} {count : Nat} {new : α}
    {good : α → Prop} (hold : ∀ cell ∈ cells, good cell) (hnew : good new) :
    ∀ cell ∈ cells ++ Array.replicate count new, good cell := by
  intro cell hcell
  rcases Array.mem_append.mp hcell with hmem | hmem
  · exact hold cell hmem
  · exact (Array.eq_of_mem_replicate hmem) ▸ hnew

/-- With things for all that it names, a graph that keeps the promises of the builders is sound. -/
theorem sound_padded (hslots : g.StoresSlots) (hreads : g.Readable) (htwinned : g.Twinned)
    (hbelow : g.NamesBelow count) (hpos : 0 < count) : (g.padded count).Sound := by
  have hnew : ∀ things : List Thing, (∀ thing ∈ things, thing.index = 0) →
      (g.padded count).Knows .atoms things := by
    intro things h
    refine knows_padded fun number hnumber => ?_
    rcases List.mem_cons.mp hnumber with rfl | hmem
    · exact hpos
    · obtain ⟨thing, hthing, rfl⟩ := List.mem_map.mp hmem
      rwa [h thing hthing]
  exact {
    atoms := (hnew [] nofun).1
    objects := forall_mem_append_replicate
      (fun cell hcell => ⟨knows_padded (hbelow.objects cell hcell), hslots cell hcell⟩)
      ⟨hnew _ (by decide), ObjectCell.stored_make ..⟩
    strings := forall_mem_append_replicate
      (fun _ hcell => knowsString_padded hreads hbelow hcell) ⟨hnew _ (by decide), nofun⟩
    scripts := forall_mem_append_replicate
      (fun cell hcell => knows_padded (hbelow.scripts cell hcell)) (hnew _ (by decide))
    shapes := forall_mem_append_replicate
      (fun cell hcell => knows_padded (hbelow.shapes cell hcell)) (hnew _ (by decide))
    baseShapes := forall_mem_append_replicate
      (fun _ hcell => knowsBaseShape_padded htwinned hbelow hcell) ⟨hnew _ (by decide), nofun⟩
    typeObjects := forall_mem_append_replicate
      (fun cell hcell => knows_padded (hbelow.typeObjects cell hcell)) (hnew _ (by decide))
    xmlNodes := forall_mem_append_replicate
      (fun cell hcell => knows_padded (hbelow.xmlNodes cell hcell)) (hnew _ (by decide)) }

theorem wordSized_padded (hwords : g.WordSized) : (g.padded count).WordSized :=
  forall_mem_append_replicate hwords (Nat.pow_pos Nat.two_pos)

end Graph

/-- Any heap at all is the front part of a sound graph, with arrays no larger. -/
theorem Heap.exists_sound (history : List Construction) : ∃ g : Graph, g.Sound ∧
    (built history).graph.Extends g ∧ ((built history).graph.WordSized → g.WordSized) := by
  obtain ⟨bound, hbelow, hpos⟩ := (built history).graph.exists_namesBelow
  exact ⟨_, Graph.sound_padded (storesSlots_built history) (readable_built history)
    (twinned_built history) hbelow hpos, Graph.extends_padded _ bound, Graph.wordSized_padded⟩

end MarkPhase
