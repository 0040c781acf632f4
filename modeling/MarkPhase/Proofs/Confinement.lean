import MarkPhase.Proofs.Delays
import MarkPhase.Proofs.Duties
import MarkPhase.Proofs.Pairs
import MarkPhase.Proofs.Segments
import MarkPhase.Scanning

/-!
What a confined marker may see. Two graphs have the same things in the same compartments,
and they agree on what the things hold that a filter lets through. Of the other things
nothing is known. Marking over the one graph and over the other, a marker claims the same
things, and before it reads what a thing holds it has claimed the thing, or found it on the
stack or on the delayed list, where only claimed things wait. A class is read through the
shapes of an object, whoever owns them, so it has to be the same in both graphs. The base of
a string is looked at before it is claimed, but it is never a rope.
-/

namespace MarkPhase

variable {ω α β : Type}

deriving instance DecidableEq for ObjectCell, StringCell, ShapeCell, BaseShapeCell, TypeCell,
  ScriptCell, XmlCell

namespace Graph

/-- The thing holds the same in both graphs, and it has the same class if it is an object. -/
def SameContent (g g' : Graph) (thing : Thing) : Prop :=
  match thing.kind with
  | .object =>
    g'.object? ⟨thing.index⟩ = g.object? ⟨thing.index⟩ ∧
      (g'.object? ⟨thing.index⟩).bind g'.classOf? = (g.object? ⟨thing.index⟩).bind g.classOf?
  | .string => g'.string? ⟨thing.index⟩ = g.string? ⟨thing.index⟩
  | .script => g'.script? ⟨thing.index⟩ = g.script? ⟨thing.index⟩
  | .shape => g'.shape? ⟨thing.index⟩ = g.shape? ⟨thing.index⟩
  | .baseShape => g'.baseShape? ⟨thing.index⟩ = g.baseShape? ⟨thing.index⟩
  | .typeObject => g'.typeObject? ⟨thing.index⟩ = g.typeObject? ⟨thing.index⟩
  | .xml => g'.xml? ⟨thing.index⟩ = g.xml? ⟨thing.index⟩

/-- The graphs differ at most in what the things hold that `filter` does not let through. -/
structure Indistinct (filter : Option CompartmentId) (g g' : Graph) : Prop where
  population : ∀ kind, g'.population kind = g.population kind
  compartment : ∀ thing, g'.compartmentOf? thing = g.compartmentOf? thing
  content : ∀ thing, g.Allowed filter thing → g.SameContent g' thing

variable {filter : Option CompartmentId} {g g' : Graph}

instance (g : Graph) (filter : Option CompartmentId) (thing : Thing) :
    Decidable (g.Allowed filter thing) :=
  decidable_of_iff ((g.compartmentOf? thing).any
      (Context.allows { compartment := filter }) = true) <| by
    simp [Allowed, Option.any_eq_true]

instance (g g' : Graph) : (thing : Thing) → Decidable (g.SameContent g' thing)
  | ⟨.object, index⟩ => inferInstanceAs (Decidable (g'.object? ⟨index⟩ = g.object? ⟨index⟩ ∧
      (g'.object? ⟨index⟩).bind g'.classOf? = (g.object? ⟨index⟩).bind g.classOf?))
  | ⟨.string, index⟩ => inferInstanceAs (Decidable (g'.string? ⟨index⟩ = g.string? ⟨index⟩))
  | ⟨.script, index⟩ => inferInstanceAs (Decidable (g'.script? ⟨index⟩ = g.script? ⟨index⟩))
  | ⟨.shape, index⟩ => inferInstanceAs (Decidable (g'.shape? ⟨index⟩ = g.shape? ⟨index⟩))
  | ⟨.baseShape, index⟩ =>
    inferInstanceAs (Decidable (g'.baseShape? ⟨index⟩ = g.baseShape? ⟨index⟩))
  | ⟨.typeObject, index⟩ =>
    inferInstanceAs (Decidable (g'.typeObject? ⟨index⟩ = g.typeObject? ⟨index⟩))
  | ⟨.xml, index⟩ => inferInstanceAs (Decidable (g'.xml? ⟨index⟩ = g.xml? ⟨index⟩))

/-- Only things that are there can make a difference. -/
theorem indistinct_iff : g.Indistinct filter g' ↔
    (∀ kind ∈ Kind.all, g'.population kind = g.population kind) ∧
    (∀ thing ∈ g.things, g'.compartmentOf? thing = g.compartmentOf? thing) ∧
    ∀ thing ∈ g.things, g.Allowed filter thing → g.SameContent g' thing := by
  constructor
  · intro h
    exact ⟨fun kind _ => h.population kind, fun thing _ => h.compartment thing,
      fun thing _ => h.content thing⟩
  · rintro ⟨hpopulation, hcompartment, hcontent⟩
    have hkinds : ∀ kind, g'.population kind = g.population kind :=
      fun kind => hpopulation kind kind.mem_all
    refine ⟨hkinds, fun thing => ?_, fun thing hallowed => ?_⟩
    · by_cases hthing : g.contains thing = true
      · exact hcompartment thing (g.mem_things.mpr hthing)
      · have hother : ¬ g'.contains thing = true := by
          simpa only [contains, hkinds] using hthing
        rw [compartmentOf?_eq_none hthing, compartmentOf?_eq_none hother]
    · exact hcontent thing (g.mem_things.mpr hallowed.contains) hallowed

instance (filter : Option CompartmentId) (g g' : Graph) : Decidable (g.Indistinct filter g') :=
  decidable_of_iff' _ indistinct_iff

end Graph

/-- Two graphs that a marker confined by `filter` must not tell apart, and the marks on the
things of each. -/
structure Pairing where
  graph : Graph
  other : Graph
  filter : Option CompartmentId
  marks : MarkTable
  otherMarks : MarkTable
  sound : graph.Sound
  otherSound : other.Sound
  indistinct : graph.Indistinct filter other

namespace Pairing

variable {P : Pairing} {s u : Marking ω}

/-- The marker may look at the thing. -/
abbrev Allows (P : Pairing) (thing : Thing) : Prop :=
  P.graph.Allowed P.filter thing

theorem object {id : ObjectId} (h : P.Allows id.thing) : P.other.object? id = P.graph.object? id :=
  (P.indistinct.content id.thing h).1

theorem objectClass {id : ObjectId} (h : P.Allows id.thing) {cell : ObjectCell}
    (hcell : P.graph.object? id = some cell) : P.other.classOf? cell = P.graph.classOf? cell := by
  have hclass : (P.other.object? id).bind P.other.classOf? =
      (P.graph.object? id).bind P.graph.classOf? := (P.indistinct.content id.thing h).2
  rwa [object h, hcell] at hclass

theorem string {id : StringId} (h : P.Allows id.thing) : P.other.string? id = P.graph.string? id :=
  P.indistinct.content id.thing h

theorem script {id : ScriptId} (h : P.Allows id.thing) : P.other.script? id = P.graph.script? id :=
  P.indistinct.content id.thing h

theorem shape {id : ShapeId} (h : P.Allows id.thing) : P.other.shape? id = P.graph.shape? id :=
  P.indistinct.content id.thing h

theorem baseShape {id : BaseShapeId} (h : P.Allows id.thing) :
    P.other.baseShape? id = P.graph.baseShape? id :=
  P.indistinct.content id.thing h

theorem typeObject {id : TypeObjectId} (h : P.Allows id.thing) :
    P.other.typeObject? id = P.graph.typeObject? id :=
  P.indistinct.content id.thing h

theorem xml {id : XmlId} (h : P.Allows id.thing) : P.other.xml? id = P.graph.xml? id :=
  P.indistinct.content id.thing h

theorem strings_size : P.other.strings.size = P.graph.strings.size :=
  P.indistinct.population .string

theorem shapes_size : P.other.shapes.size = P.graph.shapes.size :=
  P.indistinct.population .shape

theorem thingCount : P.other.thingCount = P.graph.thingCount := by
  have hpopulation := P.indistinct.population
  rw [← Graph.length_things, ← Graph.length_things]
  simp only [Graph.things, hpopulation]

/-- Marking calls object to the same things. -/
theorem objection? (thing : Thing) : P.other.objection? thing = P.graph.objection? thing := by
  by_cases hthing : P.graph.contains thing = true
  · have hother : P.other.contains thing = true := by
      rwa [← Graph.isSome_compartmentOf?, P.indistinct.compartment, Graph.isSome_compartmentOf?]
    rw [P.sound.objection?_eq_none hthing, P.otherSound.objection?_eq_none hother]
  · have hnone := Graph.compartmentOf?_eq_none hthing
    simp only [Graph.objection?, P.indistinct.compartment, hnone]

theorem objectVisits {id : ObjectId} (h : P.Allows id.thing) :
    objectVisits P.other id = objectVisits P.graph id := by
  unfold MarkPhase.objectVisits
  rw [object h]
  cases hcell : P.graph.object? id with
  | none => rfl
  | some cell => simp only [objectClass h hcell]

/-- What a thing reports is the same. -/
theorem childVisits {thing : Thing} (h : P.Allows thing) (isMarker : Bool) :
    childVisits P.other isMarker thing = childVisits P.graph isMarker thing := by
  obtain ⟨kind, index⟩ := thing
  cases kind with
  | object => exact @objectVisits P ⟨index⟩ h
  | string => simp only [MarkPhase.childVisits, stringVisits, @string P ⟨index⟩ h]
  | script => simp only [MarkPhase.childVisits, scriptVisits, @script P ⟨index⟩ h]
  | shape => simp only [MarkPhase.childVisits, shapeVisits, @shape P ⟨index⟩ h]
  | baseShape => simp only [MarkPhase.childVisits, baseShapeVisits, @baseShape P ⟨index⟩ h]
  | typeObject => simp only [MarkPhase.childVisits, typeObjectVisits, @typeObject P ⟨index⟩ h]
  | xml => simp only [MarkPhase.childVisits, xmlVisits, @xml P ⟨index⟩ h]

/-- The states of two markers, one over each graph, that have seen nothing but what is the same
in both: they agree on everything but the marks that no confined marker may touch, and whatever
waits may be looked at. -/
structure Concurs (P : Pairing) (s u : Marking ω) : Prop where
  marker : u.toMarker = s.toMarker
  filter : s.context.compartment = P.filter
  marks : ∀ thing, P.Allows thing → u.marks.get thing = s.marks.get thing
  kept : ∀ thing, ¬ P.Allows thing →
    s.marks.get thing = P.marks.get thing ∧ u.marks.get thing = P.otherMarks.get thing
  tidy : s.stack.Tidy
  stacked : ∀ entry ∈ s.stack.items, P.Allows entry.owner
  delayed : ∀ thing ∈ s.delayed.things, P.Allows thing

namespace Concurs

theorem stack (h : P.Concurs s u) : u.stack = s.stack :=
  congrArg Marker.stack h.marker

theorem isMarked (h : P.Concurs s u) {thing : Thing} (hallowed : P.Allows thing) :
    u.marks.isMarked thing = s.marks.isMarked thing := by
  rw [ThingTable.isMarked, ThingTable.isMarked, h.marks thing hallowed]

/-- The same happens to both markers, and what waits stays as it is. -/
theorem alter (h : P.Concurs s u) (change : Marker ω → Marker ω)
    (hfilter : (change s.toMarker).context.compartment = s.context.compartment)
    (hstack : (change s.toMarker).stack = s.stack)
    (hdelayed : (change s.toMarker).delayed = s.delayed) :
    P.Concurs { s with toMarker := change s.toMarker }
      { u with toMarker := change u.toMarker } where
  marker := congrArg change h.marker
  filter := hfilter.trans h.filter
  marks := h.marks
  kept := h.kept
  tidy := hstack.symm ▸ h.tidy
  stacked := hstack.symm ▸ h.stacked
  delayed := hdelayed.symm ▸ h.delayed

/-- A thing that the marker may look at gets another shade in both. -/
theorem shade (h : P.Concurs s u) {thing : Thing} (hallowed : P.Allows thing) (shade : Shade) :
    P.Concurs { s with marks := s.marks.set thing shade }
      { u with marks := u.marks.set thing shade } where
  marker := h.marker
  filter := h.filter
  marks other hother := by
    change (u.marks.set thing shade).get other = (s.marks.set thing shade).get other
    rw [ThingTable.get_set, ThingTable.get_set, h.marks other hother]
  kept other hother := by
    have hne : thing ≠ other := fun heq => hother (heq ▸ hallowed)
    change (s.marks.set thing shade).get other = _ ∧ (u.marks.set thing shade).get other = _
    rw [ThingTable.get_set, ThingTable.get_set, if_neg hne, if_neg hne]
    exact h.kept other hother
  tidy := h.tidy
  stacked := h.stacked
  delayed := h.delayed

end Concurs

/-- The moves keep states concurring. -/
abbrev Hides (P : Pairing) (m n : MarkM ω α) : Prop :=
  Coupled P.Concurs (fun _ => True) m n

end Pairing

namespace MarkM

variable {P : Pairing}

theorem hides_record (entry : Record) :
    P.Hides (record entry : MarkM ω Unit) (record entry) :=
  .modify fun _ _ h => { h with }

theorem hides_setLabel (label : Label) :
    P.Hides (setLabel label : MarkM ω Unit) (setLabel label) :=
  .modify fun _ _ h => h.alter
    (fun marker => { marker with context := { marker.context with label } }) rfl rfl rfl

theorem hides_noteScan (thing : Thing) :
    P.Hides (noteScan thing : MarkM ω Unit) (noteScan thing) :=
  .modify fun _ _ h => h.alter
    (fun marker => { marker with
      scanned := marker.scanned.bump thing.kind
      watcher := marker.watcher.map fun watcher =>
        { watcher with memory := watcher.observer.onScan thing watcher.memory } }) rfl rfl rfl

theorem hides_keepFilename (name : String) :
    P.Hides (modify fun s => { s with filenames := s.filenames.mark name } : MarkM ω PUnit)
      (modify fun s => { s with filenames := s.filenames.mark name }) :=
  .modify fun _ _ h => { h with }

theorem hides_color : P.Hides (color : MarkM ω Color) color :=
  .get fun s u h => by
    rw [show u.color = s.color from congrArg Marker.color h.marker]
    exact .pure trivial

/-- What is claimed may be looked at. -/
theorem coupled_claim (thing : Thing) (color : Color) :
    Coupled P.Concurs (fun claimed => claimed = true → P.Allows thing)
      (claim P.graph thing color : MarkM ω Bool) (claim P.other thing color) := by
  unfold claim
  rw [P.indistinct.compartment thing]
  refine .bind (.need _) fun compartment hc => .get fun s u h => ?_
  rw [show u.context = s.context from congrArg Marker.context h.marker]
  refine .ite (fun hallows => .modifyGet fun t v hstates => ?_) fun _ => .pure nofun
  have hallowed : P.Allows thing := by
    refine ⟨compartment, hc, ?_⟩
    rw [← h.filter]
    exact hallows
  rw [hstates.isMarked hallowed]
  by_cases hmarked : t.marks.isMarked thing = true
  · rw [if_pos hmarked, if_pos hmarked]
    exact ⟨rfl, nofun, hstates⟩
  · rw [if_neg hmarked, if_neg hmarked]
    exact ⟨rfl, fun _ => hallowed, hstates.shade hallowed _⟩

/-- What is done to a claimed thing is done to a thing that may be looked at. -/
theorem hides_of_claim {thing : Thing} {next next' : MarkM ω Unit}
    (hnext : P.Allows thing → P.Hides next next') :
    P.Hides (do if ← claim P.graph thing (← color) then next)
      (do if ← claim P.other thing (← color) then next') :=
  .bind hides_color fun _ _ => .bind (coupled_claim thing _) fun _ hclaimed =>
    .ite (fun h => hnext (hclaimed h)) fun _ => .pure trivial

theorem hides_isRefused (entry : StackEntry) :
    P.Hides (isRefused entry : MarkM ω Bool) (isRefused entry) := by
  refine .modifyGet fun s u h => ?_
  rw [show u.watcher = s.watcher from congrArg Marker.watcher h.marker]
  cases s.watcher with
  | none => exact ⟨rfl, trivial, h⟩
  | some watcher =>
    exact ⟨rfl, trivial, h.alter (fun marker => { marker with
      watcher := some { watcher with
        memory := (watcher.observer.refuses entry watcher.memory).2 } }) rfl rfl rfl⟩

theorem hides_delay {entry : StackEntry} (howner : P.Allows entry.owner) :
    P.Hides (delay entry : MarkM ω Unit) (delay entry) := by
  refine .get fun s u h => ?_
  rw [h.isMarked howner]
  refine .ite (fun _ => .seq (.modifyGet fun t v hstates => ?_) fun added => ?_) fun _ => .throw _
  · have hdelayed : v.delayed = t.delayed := congrArg Marker.delayed hstates.marker
    refine ⟨by rw [hdelayed], trivial, { hstates with marker := ?_, delayed := ?_ }⟩
    · exact congrArg (fun marker : Marker ω =>
        { marker with delayed := (marker.delayed.add entry.owner).2 }) hstates.marker
    · intro thing hthing
      change thing ∈ (t.delayed.add entry.owner).2.things at hthing
      unfold DelayedList.add at hthing
      split at hthing
      · exact hstates.delayed thing hthing
      · rcases List.mem_cons.mp hthing with rfl | hold
        · exact howner
        · exact hstates.delayed thing hold
  · refine .ite (fun _ => .seq (.modify fun t v hstates => ?_) fun _ => hides_record _)
      fun _ => .pure trivial
    exact hstates.alter (fun marker => { marker with delays := marker.delays + 1 }) rfl rfl rfl

theorem hides_pushEntry {entry : StackEntry} (howner : P.Allows entry.owner) :
    P.Hides (pushEntry entry : MarkM ω Unit) (pushEntry entry) := by
  refine .seq (hides_isRefused entry) fun refused =>
    .ite (fun _ => hides_delay howner) fun _ => .get fun s u h => ?_
  rw [h.stack]
  split
  · refine .modify fun t v hstates => { hstates with marker := ?_, tidy := ?_, stacked := ?_ }
    · exact congrArg (fun marker : Marker ω =>
        { marker with stack := (marker.stack.extend entry).notePeak }) hstates.marker
    · exact hstates.tidy.extend entry
    · intro other hother
      change other ∈ (t.stack.extend entry).items at hother
      rw [hstates.tidy.items_extend] at hother
      rcases List.mem_cons.mp hother with rfl | hold
      · exact howner
      · exact hstates.stacked other hold
  · exact hides_delay howner
  · exact .throw _

/-- What is taken from the stack may be looked at. -/
theorem coupled_popEntry :
    Coupled P.Concurs (fun found => ∀ entry, found = some entry → P.Allows entry.owner)
      (popEntry : MarkM ω (Option StackEntry)) popEntry := by
  refine .modifyGet fun s u h => ?_
  obtain ⟨hfirst, hrest⟩ := h.tidy.items_pop
  rw [h.stack]
  refine ⟨rfl, fun entry hentry => ?_, { h with marker := ?_, tidy := h.tidy.pop, stacked := ?_ }⟩
  · exact h.stacked entry (List.mem_of_mem_head? (hfirst.symm.trans hentry))
  · exact congrArg (fun marker : Marker ω => { marker with stack := s.stack.pop.2 }) h.marker
  · intro entry hentry
    change entry ∈ s.stack.pop.2.items at hentry
    rw [hrest] at hentry
    exact h.stacked entry (List.mem_of_mem_tail hentry)

theorem hides_pushRange {range : ValueRange} (howner : P.Allows range.owner.thing) :
    P.Hides (pushRange range : MarkM ω Unit) (pushRange range) :=
  .check (.ite (fun _ => hides_pushEntry howner) fun _ => .pure trivial)

/-! Things that wait. -/

theorem hides_pushObject (id : ObjectId) :
    P.Hides (pushObject P.graph id : MarkM ω Unit) (pushObject P.other id) :=
  hides_of_claim fun hallowed => hides_pushEntry hallowed

theorem hides_pushTypeObject (id : TypeObjectId) :
    P.Hides (pushTypeObject P.graph id : MarkM ω Unit) (pushTypeObject P.other id) :=
  hides_of_claim fun hallowed => hides_pushEntry hallowed

theorem hides_pushXml (id : XmlId) :
    P.Hides (pushXml P.graph id : MarkM ω Unit) (pushXml P.other id) :=
  hides_of_claim fun hallowed => hides_pushEntry hallowed

/-! Strings. -/

theorem hides_scanLinear (steps : Nat) {id : StringId} (hid : P.Allows id.thing) :
    P.Hides (scanLinear P.graph steps id : MarkM ω Unit) (scanLinear P.other steps id) := by
  induction steps generalizing id with
  | zero => exact .throw .endless
  | succ steps ih =>
    unfold scanLinear
    refine .seq (hides_noteScan _) fun _ => ?_
    rw [P.string hid]
    refine .bind (.need _) fun string hstring => ?_
    cases hbase : string.base? with
    | none => exact .pure trivial
    | some base =>
      -- The base may be anybody's, but in neither graph it is a rope.
      obtain ⟨below, hbelow, hlinear⟩ := (P.sound.string hstring).2 base hbase
      obtain ⟨below', hbelow', hlinear'⟩ :=
        (P.otherSound.string ((P.string hid).trans hstring)).2 base hbase
      refine .of_need hbelow hbelow' ?_
      rw [hlinear, hlinear']
      exact .bind (coupled_claim _ _) fun _ hclaimed =>
        .ite (fun h => ih (hclaimed h)) fun _ => .pure trivial

/-- A rope that is handed back has been claimed. -/
theorem coupled_enterPart (part : StringId) :
    Coupled P.Concurs (fun next => ∀ id, next = some id → P.Allows id.thing)
      (enterPart P.graph part : MarkM ω (Option StringId)) (enterPart P.other part) := by
  unfold enterPart
  refine .bind (coupled_claim _ _) fun claimed hclaimed =>
    .ite (fun h => ?_) fun _ => .pure nofun
  have hpart := hclaimed h
  rw [P.string hpart, P.strings_size]
  refine .bind (.need _) fun string _ => .ite (fun _ => .pure ?_) fun _ =>
    .seq (hides_scanLinear _ hpart) fun _ => .pure nofun
  rintro id heq
  obtain rfl := Option.some.inj heq
  exact hpart

theorem hides_scanRope (depth steps : Nat) {id : StringId} (hid : P.Allows id.thing) :
    P.Hides (scanRope P.graph depth steps id : MarkM ω Unit) (scanRope P.other depth steps id) := by
  induction steps generalizing id with
  | zero => exact .throw .endless
  | succ steps ih =>
    unfold scanRope
    refine .seq (hides_noteScan _) fun _ => ?_
    rw [P.string hid]
    refine .bind (.need _) fun string _ => ?_
    split
    · exact .throw _
    · refine .bind (coupled_enterPart _) fun last hlast =>
        .bind (coupled_enterPart _) fun first hfirst => ?_
      cases first with
      | some next =>
        have hnext := ih (hfirst next rfl)
        cases last with
        | none => exact hnext
        | some waiting => exact .seq (hides_pushEntry (hlast waiting rfl)) fun _ => hnext
      | none =>
        cases last with
        | some next => exact ih (hlast next rfl)
        | none =>
          refine .get fun s u h => ?_
          rw [h.stack]
          refine .ite (fun _ => .bind coupled_popEntry fun found hfound => ?_)
            fun _ => .pure trivial
          split
          · rename_i next
            exact ih (hfound _ rfl)
          · exact .throw _

theorem hides_pushString (id : StringId) :
    P.Hides (pushString P.graph id : MarkM ω Unit) (pushString P.other id) := by
  unfold pushString
  refine .bind (coupled_claim _ _) fun claimed hclaimed =>
    .ite (fun h => ?_) fun _ => .pure trivial
  have hid := hclaimed h
  rw [P.string hid, P.strings_size]
  refine .bind (.need _) fun string _ => .ite (fun _ => .get fun s u h => ?_) fun _ =>
    hides_scanLinear _ hid
  rw [h.stack]
  exact hides_scanRope _ _ hid

/-! Shapes. -/

theorem hides_pushOptional {kind : Kind} {push push' : Ref kind → MarkM ω Unit}
    (hpush : ∀ id, P.Hides (push id) (push' id)) (ref : Option (Ref kind)) :
    P.Hides (pushOptional push ref) (pushOptional push' ref) := by
  cases ref with
  | none => exact .pure trivial
  | some id => exact hpush id

/-- The twin is shaded without being claimed, but it belongs to the same compartment. -/
theorem hides_shadeTwin {id : BaseShapeId} (hid : P.Allows id.thing) {base : BaseShapeCell}
    (hbase : P.graph.baseShape? id = some base) {twin : BaseShapeId}
    (htwin : base.twin = some twin) :
    P.Hides (shadeTwin P.graph id base twin : MarkM ω Unit) (shadeTwin P.other id base twin) := by
  obtain ⟨cell, hcell, hagrees⟩ := (P.sound.baseShape hbase).2 twin htwin
  have hallowed : P.Allows twin.thing := by
    obtain ⟨compartment, hc, hallows⟩ := hid
    have hown : P.graph.compartmentOf? id.thing = some base.compartment :=
      congrArg (Option.map BaseShapeCell.compartment) hbase
    have hother : P.graph.compartmentOf? twin.thing = some cell.compartment :=
      congrArg (Option.map BaseShapeCell.compartment) hcell
    obtain rfl := Option.some.inj (hown.symm.trans hc)
    exact ⟨cell.compartment, hother, hagrees.compartment.symm ▸ hallows⟩
  unfold shadeTwin
  rw [P.baseShape hallowed]
  refine .seq ((Coupled.need _).mono fun _ _ => trivial) fun _ =>
    .ite (fun _ => .seq hides_color fun color => .modify fun s u h => ?_) fun _ => .throw _
  rw [h.isMarked hallowed]
  by_cases hmarked : s.marks.isMarked twin.thing = true
  · rwa [if_pos hmarked, if_pos hmarked]
  · rw [if_neg hmarked, if_neg hmarked]
    exact h.shade hallowed _

theorem hides_scanBaseShape {id : BaseShapeId} (hid : P.Allows id.thing) :
    P.Hides (scanBaseShape P.graph id : MarkM ω Unit) (scanBaseShape P.other id) := by
  unfold scanBaseShape
  refine .seq (hides_noteScan _) fun _ => ?_
  rw [P.baseShape hid]
  refine .bind (.need _) fun base hbase => .seq (hides_pushOptional hides_pushObject _) fun _ =>
    .seq (hides_pushOptional hides_pushObject _) fun _ =>
      .seq (hides_pushOptional hides_pushObject _) fun _ => ?_
  cases htwin : base.twin with
  | none => exact .pure trivial
  | some twin => exact hides_shadeTwin hid hbase htwin

theorem hides_pushBaseShape (id : BaseShapeId) :
    P.Hides (pushBaseShape P.graph id : MarkM ω Unit) (pushBaseShape P.other id) :=
  hides_of_claim fun hallowed => hides_scanBaseShape hallowed

theorem hides_pushProperty (property : PropertyId) :
    P.Hides (pushProperty P.graph property : MarkM ω Unit) (pushProperty P.other property) := by
  cases property with
  | string id => exact hides_pushString id
  | object id => exact hides_pushObject id
  | _ => exact .pure trivial

theorem hides_scanShape (steps : Nat) {id : ShapeId} (hid : P.Allows id.thing) :
    P.Hides (scanShape P.graph steps id : MarkM ω Unit) (scanShape P.other steps id) := by
  induction steps generalizing id with
  | zero => exact .throw .endless
  | succ steps ih =>
    unfold scanShape
    refine .seq (hides_noteScan _) fun _ => ?_
    rw [P.shape hid]
    refine .bind (.need _) fun shape _ => .seq (hides_pushBaseShape _) fun _ =>
      .seq (hides_pushProperty _) fun _ => ?_
    split
    · exact hides_of_claim fun hallowed => ih hallowed
    · exact .pure trivial

theorem hides_pushShape (id : ShapeId) :
    P.Hides (pushShape P.graph id : MarkM ω Unit) (pushShape P.other id) := by
  unfold pushShape
  rw [P.shapes_size]
  exact hides_of_claim fun hallowed => hides_scanShape _ hallowed

/-! Visits. -/

theorem hides_follow {push push' : Thing → MarkM ω Unit}
    (hpush : ∀ thing, P.Hides (push thing) (push' thing)) (visits : List Visit) :
    P.Hides (follow P.graph push visits) (follow P.other push' visits) := by
  refine .forM fun visit _ => ?_
  cases visit with
  | setLabel label => exact hides_setLabel label
  | keepFilename name => exact hides_keepFilename name
  | broken fault => exact .throw fault
  | report thing =>
    have hreport : P.Hides (do push thing; setLabel .blank) (do push' thing; setLabel .blank) :=
      .seq (hpush thing) fun _ => hides_setLabel .blank
    simp only [visit, P.objection? thing]
    cases P.graph.objection? thing with
    | some fault => exact .seq (.throw fault) fun _ => hreport
    | none => exact hreport

theorem hides_pushPlain (thing : Thing) :
    P.Hides (pushPlain P.graph thing : MarkM ω Unit) (pushPlain P.other thing) := by
  unfold pushPlain
  cases thing.kind with
  | object => exact hides_pushObject _
  | string => exact hides_pushString _
  | script => exact .pure trivial
  | shape => exact hides_pushShape _
  | baseShape => exact hides_pushBaseShape _
  | typeObject => exact hides_pushTypeObject _
  | xml => exact hides_pushXml _

theorem hides_pushScript (id : ScriptId) :
    P.Hides (pushScript P.graph id : MarkM ω Unit) (pushScript P.other id) := by
  refine hides_of_claim fun hallowed => .seq (hides_noteScan _) fun _ => ?_
  have hvisits : scriptVisits P.other true id = scriptVisits P.graph true id :=
    (P.childVisits hallowed true :)
  rw [hvisits]
  exact hides_follow hides_pushPlain _

theorem hides_pushThing (thing : Thing) :
    P.Hides (pushThing P.graph thing : MarkM ω Unit) (pushThing P.other thing) := by
  unfold pushThing
  split
  · exact hides_pushScript _
  · exact hides_pushPlain thing

theorem hides_scanXml {id : XmlId} (hid : P.Allows id.thing) :
    P.Hides (scanXml P.graph id : MarkM ω Unit) (scanXml P.other id) := by
  have hvisits : xmlVisits P.other id = xmlVisits P.graph id :=
    (P.childVisits hid true :)
  unfold scanXml
  rw [hvisits]
  exact .seq (hides_noteScan _) fun _ => hides_follow hides_pushThing _

theorem hides_scanTypeObject {id : TypeObjectId} (hid : P.Allows id.thing) :
    P.Hides (scanTypeObject P.graph id : MarkM ω Unit) (scanTypeObject P.other id) := by
  have hobject : ∀ ref, P.Hides (pushOptional (pushObject P.graph) ref : MarkM ω Unit)
      (pushOptional (pushObject P.other) ref) := hides_pushOptional hides_pushObject
  have hlast : ∀ type : TypeCell, P.Hides
      (do pushOptional (pushObject P.graph) type.function
          if !type.isLazy then pushOptional (pushObject P.graph) type.singleton : MarkM ω Unit)
      (do pushOptional (pushObject P.other) type.function
          if !type.isLazy then pushOptional (pushObject P.other) type.singleton) :=
    fun type => .seq (hobject _) fun _ => .ite (fun _ => hobject _) fun _ => .pure trivial
  unfold scanTypeObject
  refine .seq (hides_noteScan _) fun _ => ?_
  rw [P.typeObject hid]
  refine .bind (.need _) fun type _ => .seq (.forM fun _ _ => hides_pushProperty _) fun _ =>
    .seq (hobject _) fun _ => ?_
  cases type.newScript with
  | none => exact hlast type
  | some newScript =>
    exact .seq (hides_pushObject _) fun _ => .seq (hides_pushShape _) fun _ => hlast type

/-! Objects. -/

/-- An object that is found on the way has been claimed. -/
theorem coupled_readValues {owner : ObjectId} (howner : P.Allows owner.thing) (object : ObjectCell)
    (region : Region) (count index : Nat) :
    Coupled P.Concurs (fun next => ∀ id, next = some id → P.Allows id.thing)
      (readValues P.graph owner object region count index : MarkM ω (Option ObjectId))
      (readValues P.other owner object region count index) := by
  induction count generalizing index with
  | zero => exact .pure nofun
  | succ count ih =>
    unfold readValues
    split
    · exact .seq (hides_pushString _) fun _ => ih _
    · rename_i id _
      refine .seq hides_color fun color => .bind (coupled_claim _ _) fun claimed hclaimed =>
        .ite (fun h => .seq (hides_pushRange howner) fun _ => .pure ?_) fun _ => ih _
      rintro other heq
      obtain rfl := Option.some.inj heq
      exact hclaimed h
    · exact ih _

theorem coupled_scanRange {range : ValueRange} (howner : P.Allows range.owner.thing) :
    Coupled P.Concurs (fun next => ∀ id, next = some id → P.Allows id.thing)
      (scanRange P.graph range : MarkM ω (Option ObjectId)) (scanRange P.other range) := by
  unfold scanRange
  rw [P.object howner]
  exact .bind (.need _) fun object _ => .check (coupled_readValues howner object _ _ _)

theorem coupled_openObject {id : ObjectId} (hid : P.Allows id.thing) :
    Coupled P.Concurs (fun next => ∀ range, next = some range → P.Allows range.owner.thing)
      (openObject P.graph id : MarkM ω (Option ValueRange)) (openObject P.other id) := by
  have hown : ∀ region start stop, ∀ range,
      some { owner := id, region, start, stop : ValueRange } = some range →
      P.Allows range.owner.thing := by
    rintro region start stop range heq
    obtain rfl := Option.some.inj heq
    exact hid
  unfold openObject
  refine .seq (hides_noteScan _) fun _ => ?_
  rw [P.object hid]
  refine .bind (.need _) fun object hobject => .seq (hides_pushTypeObject _) fun _ =>
    .seq (hides_pushShape _) fun _ => ?_
  rw [P.objectClass hid hobject]
  refine .bind (.need _) fun objectClass _ => .ite (fun _ => .pure (hown _ _ _)) fun _ => ?_
  refine .seq (hides_follow hides_pushThing _) fun _ => .ite (fun _ => .pure nofun) fun _ => ?_
  exact .ite (fun _ => .seq (hides_pushRange hid) fun _ => .pure (hown _ _ _)) fun _ =>
    .pure (hown _ _ _)

theorem coupled_scanObject {id : ObjectId} (hid : P.Allows id.thing) :
    Coupled P.Concurs (fun next => ∀ id, next = some id → P.Allows id.thing)
      (scanObject P.graph id : MarkM ω (Option ObjectId)) (scanObject P.other id) := by
  refine .bind (coupled_openObject hid) fun next hnext => ?_
  cases next with
  | none => exact .pure nofun
  | some range => exact coupled_scanRange (hnext range rfl)

end MarkM

end MarkPhase
