import MarkPhase.Proofs.Colors
import MarkPhase.Proofs.Resizing

/-!
Where slots are stored is hidden. A new object holds, after slots were written in any order,
what was written last to each of them, for every number of inline slots. So neither the edges
of an object nor the marked things tell how many of its slots are inline.
-/

namespace MarkPhase

namespace Builder

/-- A new object with slots written one after the other. -/
def newFilled (compartment : CompartmentId) (type : TypeObjectId) (shape : ShapeId)
    (fixed : Nat) (writes : List (Nat × Value)) : Builder ObjectId := do
  let id ← newObject compartment type shape fixed
  writes.forM fun write => setSlot id write.1 write.2
  return id

theorem yields_writes {heap : Heap} {id : ObjectId} {cell : ObjectCell} {fixed : Nat}
    {before writes : List (Nat × Value)} (hid : heap.graph.object? id = some cell)
    (hcell : cell.Carries fixed before) (hwrites : ∀ write ∈ writes, write.1 < 2 ^ 32 - 1) :
    Yields (writes.forM fun write => setSlot id write.1 write.2) heap
      (fun _ next => ∃ written, next.graph.object? id = some written ∧
        written.Carries fixed (writes.reverse ++ before)) fun _ _ => False := by
  induction writes generalizing heap cell before with
  | nil => exact ⟨cell, hid, hcell⟩
  | cons write writes ih =>
    obtain ⟨index, value⟩ := write
    change Yields (setSlot id index value >>= fun _ => writes.forM _) heap _ _
    rw [yields_bind, yields_of_eq_ok (setSlot_eq hid (hwrites _ (List.mem_cons_self ..)) value)]
    rw [List.reverse_cons, List.append_assoc]
    exact ih (object?_withObject hid _) (hcell.write index value) fun write hwrite =>
      hwrites write (List.mem_cons_of_mem _ hwrite)

theorem yields_newFilled {heap : Heap} (hroom : heap.graph.population .object < 2 ^ 32)
    (compartment : CompartmentId) (type : TypeObjectId) (shape : ShapeId) {fixed : Nat}
    {writes : List (Nat × Value)} (hfits : fitsMemory fixed Value.bytes = true)
    (hwrites : ∀ write ∈ writes, write.1 < 2 ^ 32 - 1) :
    Yields (newFilled compartment type shape fixed writes) heap
      (fun id next => ∃ cell, next.graph.object? id = some cell ∧
        cell.Carries fixed writes.reverse) fun _ _ => False := by
  unfold newFilled newObject
  simp only [yields_bind, yields_pure]
  refine yields_allocate (fun _ => ?_) fun fault hfault =>
    Bool.false_ne_true ((fitsMemory_of_allocationFault? hfault).symm.trans hfits)
  have hcell : (ObjectCell.make compartment type shape fixed).Carries fixed [] := .make ..
  rw [add, yields_modifyGet, toWord_of_lt hroom]
  refine (yields_writes ?_ hcell hwrites).imp fun _ next hnext => ?_
  · exact Array.getElem?_push_size
  · simpa using hnext

end Builder

namespace Launch

open MarkM

variable {ω ω' : Type} {L : Launch ω} {L' : Launch ω'}

/-- Confined alike, markers on both heaps start from the same roots. -/
theorem roots_of_resized (h : L.graph.Resized L'.graph) (hfilter : L'.filter = L.filter)
    (steps : List Step) : L'.roots steps = L.roots steps := by
  unfold roots
  rw [hfilter]
  refine List.flatMap_congr fun step _ => ?_
  cases step with
  | call request =>
    change List.filterMap _ _ = List.filterMap _ _
    rw [h.visits_eq]
  | _ => rfl

/-- Drained, the markers have marked the same things. -/
theorem isMarked_of_resized (h : L.graph.Resized L'.graph) (hwords : L.graph.WordSized)
    (hfilter : L'.filter = L.filter) {steps steps' : List Step} {s t : Marking ω}
    {s' t' : Marking ω'} {budget budget' : Budget}
    (hleads : L.Leads steps s) (hleads' : L'.Leads steps' s')
    (hroots : ∀ thing, thing ∈ L.roots steps ↔ thing ∈ L'.roots steps')
    (hdrain : drain L.graph budget s = .ok true t)
    (hdrain' : drain L'.graph budget' s' = .ok true t') (thing : Thing) :
    t'.marks.isMarked thing = t.marks.isMarked thing := by
  rw [Bool.eq_iff_iff, hleads.marked_iff_of_roots hwords hdrain hroots,
    hleads'.marked_iff_of_roots (h.wordSized hwords) hdrain' fun _ => Iff.rfl, hfilter]
  exact h.reachable_iff

/-- Steps that name what is there lead to the end of marking where segments fit memory. -/
theorem exists_drained_of_known
    (hfits : fitsMemory L.configuration.segmentSize entryBytes = true) {steps : List Step}
    (hknown : ∀ step ∈ steps, (Command.step step).KnownOn L.graph) :
    ∃ s t, L.Leads steps s ∧ drain L.graph .unlimited s = .ok true t := by
  have hstart : L.Ready L.start := L.ready_start L.ledger.marks
  obtain ⟨s, hs, hready⟩ := hstart.exists_steps hfits hknown
  obtain ⟨t, ht, -⟩ := hready.exists_drained hfits
  exact ⟨s, t, hs, ht⟩

/-- The number of inline slots of an object does not show. After slots of low enough indices
were written on a new object, in any order, the span is one more than the highest of them, a
slot below it holds what was written to it last, the inline slots in use and the overflow are
these slots in order, and there is an overflow where the span exceeds the inline slots, as
long as it exceeds them. Heaps that the same calls have built for other numbers of inline
slots show every tracer the same edges, and markers that started from the same roots, each
with schedule, observer and stack of its own, have marked the same things once they are done.
They are done at some time where segments fit memory. -/
theorem storage_hidden :
    (∀ (heap : Heap) (compartment : CompartmentId) (type : TypeObjectId) (shape : ShapeId)
        (fixed : Nat) (writes : List (Nat × Value)),
      heap.graph.population .object < 2 ^ 32 → fitsMemory fixed Value.bytes = true →
      (∀ write ∈ writes, write.1 < 2 ^ 32 - 1) →
      ∃ id next cell,
        Builder.newFilled compartment type shape fixed writes heap = .ok id next ∧
        next.graph.object? id = some cell ∧
        cell.span = ((writes.map (·.1 + 1)).max?).getD 0 ∧
        (∀ index < cell.span, next.graph.readSlot id index =
          .ok ((writes.reverse.lookup index).getD .undefined)) ∧
        cell.region .fixed ++ cell.region .dynamic = (List.range cell.span).map cell.slot ∧
        (cell.overflow.isSome = true ↔ fixed < cell.span) ∧
        ∀ slots, cell.overflow = some slots → slots.size = cell.span - fixed) ∧
    (∀ history history' : List Construction,
      List.Forall₂ Construction.Resized history history' → ∀ thing,
        (∀ isMarker, childVisits (Heap.built history').graph isMarker thing =
          childVisits (Heap.built history).graph isMarker thing) ∧
        (Heap.built history').graph.shownEdges thing =
          (Heap.built history).graph.shownEdges thing) ∧
    ∀ {ω ω' : Type} (L : Launch ω) (L' : Launch ω'),
      List.Forall₂ Construction.Resized L.history L'.history → L'.filter = L.filter →
      (∀ steps, L'.roots steps = L.roots steps) ∧
      (L.graph.WordSized → ∀ (steps steps' : List Step) (s t : Marking ω) (s' t' : Marking ω')
          (budget budget' : Budget), L.Leads steps s → L'.Leads steps' s' →
        (∀ thing, thing ∈ L.roots steps ↔ thing ∈ L'.roots steps') →
        drain L.graph budget s = .ok true t → drain L'.graph budget' s' = .ok true t' →
        ∀ thing, t'.marks.isMarked thing = t.marks.isMarked thing) ∧
      ∀ steps, (∀ step ∈ steps, (Command.step step).KnownOn L.graph) →
        fitsMemory L.configuration.segmentSize entryBytes = true →
        fitsMemory L'.configuration.segmentSize entryBytes = true →
        ∃ s t s' t', L.Leads steps s ∧ drain L.graph .unlimited s = .ok true t ∧
          L'.Leads steps s' ∧ drain L'.graph .unlimited s' = .ok true t' := by
  refine ⟨fun heap compartment type shape fixed writes hroom hfits hwrites => ?_,
    fun history history' hhistories thing => ?_, fun L L' hhistories hfilter => ?_⟩
  · obtain ⟨id, next, hmade, cell, hcell, hcarries⟩ :=
      (Builder.yields_newFilled hroom compartment type shape hfits hwrites).exists_post
    have hbefore : ∀ write ∈ writes.reverse, write.1 < 2 ^ 32 - 1 :=
      fun write hwrite => hwrites write (List.mem_reverse.mp hwrite)
    refine ⟨id, next, cell, hmade, hcell, ?_, fun index hindex => ?_,
      (hcarries.stored hbefore).map_slot.symm, hcarries.overflow, fun slots hslots => ?_⟩
    · rw [hcarries.span_eq, List.reverse_reverse]
    · simp only [Graph.readSlot, hcell, if_pos hindex, hcarries.slot]
    · rw [← hcarries.overflow_size, hslots, Option.getD_some]
  · have hgraphs := (Heap.resized_built hhistories).graph
    exact ⟨fun isMarker => hgraphs.childVisits_eq isMarker thing, hgraphs.shownEdges_eq thing⟩
  · have hgraphs : L.graph.Resized L'.graph := (Heap.resized_built hhistories).graph
    refine ⟨roots_of_resized hgraphs hfilter, fun hwords steps steps' s t s' t' budget budget'
      hleads hleads' hroots hdrain hdrain' => isMarked_of_resized hgraphs hwords hfilter hleads
        hleads' hroots hdrain hdrain', fun steps hknown hfits hfits' => ?_⟩
    obtain ⟨s, t, hs, ht⟩ := exists_drained_of_known hfits hknown
    obtain ⟨s', t', hs', ht'⟩ := exists_drained_of_known hfits' fun step hstep =>
      (hgraphs.knownOn_iff _).mpr (hknown step hstep)
    exact ⟨s, t, s', t', hs, ht, hs', ht'⟩

/-- Where there is no memory for the inline slots there is no object. -/
theorem newFilled_fails_without_memory :
    let heap := Heap.built [.baseShape .atoms none none none none, .shape .atoms ⟨0⟩ .void none,
      .typeObject .atoms [] none none none]
    ∃ next, Builder.newFilled .atoms ⟨0⟩ ⟨0⟩ (2 ^ 60) [(0, .null)] heap =
      .error .capacityOverflow next :=
  Yields.exists_stop (by decide +kernel)

/-- The objects of the sample, with other numbers of inline slots. -/
def resized : Launch Unit :=
  { sample 0 none with
    history :=
      [.baseShape .atoms none none none none, .shape .atoms ⟨0⟩ .void none,
        .typeObject .atoms [] none none none, .object .atoms ⟨0⟩ ⟨0⟩ 0, .object .atoms ⟨0⟩ ⟨0⟩ 3,
        .object .atoms ⟨0⟩ ⟨0⟩ 0, .slot ⟨0⟩ 0 (.object ⟨1⟩), .slot ⟨0⟩ 1 .null,
        .slot ⟨1⟩ 0 (.object ⟨2⟩)]
    grounded := by decide +kernel }

theorem storage_hidden_sample :
    let writes : List (Nat × Value) := [(3, .null), (0, .object ⟨0⟩), (3, .string ⟨0⟩)]
    let L : Launch Unit := sample 1 (some ⟨.rangeless, ()⟩)
    let steps : List Step := [.call (.unnamed ⟨.object, 0⟩), .slice (.work 1)]
    let steps' : List Step := [.call (.root "top" (some ⟨.object, 0⟩)),
      .call (.thing "again" ⟨.object, 0⟩), .delayedSlice (.work 1)]
    (∃ id next cell, Builder.newFilled .atoms ⟨0⟩ ⟨0⟩ 2 writes Heap.empty = .ok id next ∧
      next.graph.object? id = some cell ∧ cell.span = 4 ∧
      (∀ index < 4, next.graph.readSlot id index =
        .ok ((writes.reverse.lookup index).getD .undefined)) ∧
      cell.region .fixed ++ cell.region .dynamic = (List.range 4).map cell.slot ∧
      (cell.overflow.isSome = true ↔ 2 < 4) ∧
      ∀ slots, cell.overflow = some slots → slots.size = 4 - 2) ∧
    List.Forall₂ Construction.Resized L.history resized.history ∧ L.graph.WordSized ∧
    (∀ thing, (∀ isMarker,
        childVisits resized.graph isMarker thing = childVisits L.graph isMarker thing) ∧
      resized.graph.shownEdges thing = L.graph.shownEdges thing) ∧
    ∃ s t s' t', L.Leads steps s ∧ drain L.graph (.work 9) s = .ok true t ∧
      resized.Leads steps' s' ∧ drain resized.graph .unlimited s' = .ok true t' ∧
      ∀ thing, t'.marks.isMarked thing = t.marks.isMarked thing := by
  intro writes L steps steps'
  have hhistories : List.Forall₂ Construction.Resized L.history resized.history :=
    .cons (.same trivial) <| .cons (.same trivial) <| .cons (.same trivial) <|
    .cons (.object _ _ _ (by decide)) <| .cons (.object _ _ _ (by decide)) <|
    .cons (.object _ _ _ (by decide)) <| .cons (.same (show 0 < 2 ^ 32 - 1 by decide)) <|
    .cons (.same (show 1 < 2 ^ 32 - 1 by decide)) <|
    .cons (.same (show 0 < 2 ^ 32 - 1 by decide)) .nil
  obtain ⟨hwritten, hshown, hmarked⟩ := storage_hidden
  have hwords : L.graph.WordSized := by decide +kernel
  refine ⟨?_, hhistories, hwords, hshown _ _ hhistories, ?_⟩
  · obtain ⟨id, next, cell, hmade, hcell, hspan, hrest⟩ :=
      hwritten Heap.empty .atoms ⟨0⟩ ⟨0⟩ 2 writes (by decide) (by decide) (by decide)
    have hspan : cell.span = 4 := hspan.trans (by decide)
    rw [hspan] at hrest
    exact ⟨id, next, cell, hmade, hcell, hspan, hrest⟩
  · obtain ⟨_, s, t, hs, ht⟩ : ∃ a s t, steps.forM (Step.make L.graph) L.start = .ok a s ∧
        drain L.graph (.work 9) s = .ok true t := Yields.exists_answer (by decide +kernel)
    obtain ⟨_, s', t', hs', ht'⟩ : ∃ a s t, steps'.forM (Step.make resized.graph) resized.start =
        .ok a s ∧ drain resized.graph .unlimited s = .ok true t :=
      Yields.exists_answer (by decide +kernel)
    have hroots : L.roots steps = [⟨.object, 0⟩] := by decide +kernel
    have hroots' : resized.roots steps' = [⟨.object, 0⟩, ⟨.object, 0⟩] := by decide +kernel
    exact ⟨s, t, s', t', hs, ht, hs', ht', (hmarked L resized hhistories rfl).2.1 hwords steps
      steps' s t s' t' _ _ hs hs' (by simp [hroots, hroots']) ht ht'⟩

end Launch

end MarkPhase
