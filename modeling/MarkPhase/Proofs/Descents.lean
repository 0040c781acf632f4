import MarkPhase.Proofs.Stretches

/-!
How a marker goes down a lineage on a graph of which little is known. Each shape of the stretch
that it takes has had no mark, so it is scanned once at most, and the marker comes to an end
even where the lineage does not. So does a tracer that is shown a lineage which has an end.
-/

namespace MarkPhase

variable {ω α β : Type}

/-! What all moves on the way have in common. -/

namespace Chronicle

/-- How often a shape has been scanned, and one time more as long as it is not marked. -/
def chances (c : Chronicle ω) (id : ShapeId) : Nat :=
  c.scans id.thing + if c.marks.isMarked id.thing = true then 0 else 1

/-- The marker proceeds, and it scans no shape unless it has marked it for that. -/
structure Descends (c d : Chronicle ω) : Prop where
  proceeds : c.toMarking.Proceeds d.toMarking
  chances : ∀ id, d.chances id ≤ c.chances id

instance : IsPreorder (Chronicle ω) Descends where
  refl c := ⟨refl_of _ c.toMarking, fun _ => Nat.le_refl _⟩
  trans _ _ _ h h' := ⟨trans_of _ h.proceeds h'.proceeds,
    fun id => Nat.le_trans (h'.chances id) (h.chances id)⟩

theorem chances_le {c d : Chronicle ω} (h : c.toMarking.Proceeds d.toMarking) {id : ShapeId}
    (hscans : d.scans id.thing ≤ c.scans id.thing) : d.chances id ≤ c.chances id := by
  unfold chances
  by_cases hmarked : c.marks.isMarked id.thing = true
  · rw [if_pos hmarked, if_pos (h.grows _ hmarked)]
    exact hscans
  · rw [if_neg hmarked]
    split <;> omega

theorem Descends.quiet {c : Chronicle ω} {t : Marking ω} (h : c.toMarking.Proceeds t) :
    c.Descends { c with toMarking := t } :=
  ⟨h, fun _ => chances_le h (Nat.le_refl _)⟩

theorem count_course (c : Chronicle ω) (id : ShapeId) :
    c.course.count (.scanned id.thing) = c.scans id.thing := by
  have hshape : (Event.scanned id.thing).onShape = true := rfl
  rw [course, List.count_reverse, List.count_filter hshape, scans]

/-- Each shape of a stretch is scanned when it is taken, and no other one. -/
theorem count_stretchSteps (parent : Option Thing) (line : List ShapeId) (stop : Option ShapeId)
    (id : ShapeId) : (stretchSteps parent line stop).count (.scanned id.thing) = line.count id := by
  induction line generalizing parent with
  | nil => cases stop <;> simp [stretchSteps]
  | cons first rest ih =>
    rw [stretchSteps, List.count_cons_of_ne (by simp), List.count_cons, List.count_cons, ih]
    by_cases heq : first = id
    · simp [heq]
    · have hne : Event.scanned first.thing ≠ .scanned id.thing :=
        fun hsame => heq (Ref.thing_injective (Event.scanned.inj hsame))
      simp [heq, hne]

/-- A stretch that is taken uses up the chances that its shapes have had. -/
theorem Takes.descends {g : Graph} {parent : Option Thing} {line : List ShapeId}
    {stop : Option ShapeId} {c d : Chronicle ω} (h : c.Takes (stretchSteps parent line stop) line d)
    (hfree : ∀ id ∈ line, c.MayTake g id) (hnodup : line.Nodup) : c.Descends d where
  proceeds := h.marking.proceeds
  chances id := by
    have hscans : d.scans id.thing = c.scans id.thing + line.count id := by
      rw [← count_course, ← count_course, h.course, List.count_append, count_stretchSteps]
    by_cases hmem : id ∈ line
    · have hmarked : d.marks.isMarked id.thing = true := by
        rw [ThingTable.isMarked, h.marking.shades, if_pos hmem, Shade.isMarked]
      rw [chances, chances, hscans, hmarked, (hfree id hmem).2,
        List.count_eq_one_of_mem hnodup hmem, if_pos rfl, if_neg Bool.false_ne_true]
    · refine chances_le h.marking.proceeds ?_
      rw [hscans, List.count_eq_zero_of_not_mem hmem, Nat.add_zero]

end Chronicle

/-! What may stop a marker on the way. -/

namespace Graph

/-- The fault is for something named that is not there, or for want of memory for the stack. -/
def Blocks (g : Graph) (top : ShapeId) (s : Marking ω) (fault : Fault) : Prop :=
  g.Dangles top fault ∨ allocationFault? s.stack.segmentSize s.stack.itemBytes = some fault

/-- From `c`, wherever the move may stop, the marker has gone on as it should, and it fails
only for one of the reasons that it may have. -/
def Passes (g : Graph) (top : ShapeId) (c : Chronicle ω) (m : ChronM ω α) : Prop :=
  Yields m c (fun _ => c.Descends)
    fun fault d => c.Descends d ∧ (c.Orderly → g.Blocks top c.toMarking fault)

def Traverses (g : Graph) (top : ShapeId) (m : ChronM ω α) : Prop :=
  ∀ c, g.Passes top c m

variable {g : Graph} {top : ShapeId}

theorem Halts.blocks {s : Marking ω} {fault : Fault} (h : g.Halts top s fault) :
    g.Blocks top s fault := by
  refine h.imp_left fun hlacks => ?_
  obtain ⟨rfl, thing, hnamed, hmissing⟩ := hlacks
  exact .missing hnamed hmissing

theorem heeds_blocks : Chronicle.Heeds (ω := ω) Chronicle.Descends (g.Blocks top) where
  proceeds _ _ h := h.proceeds
  earlier s t fault h hfault := by
    unfold Blocks at hfault ⊢
    rwa [h.segmentSize, h.itemBytes] at hfault

namespace Traverses

variable {m : ChronM ω α} {f : α → ChronM ω β}

protected theorem bind (hm : g.Traverses top m) (hf : ∀ a, g.Traverses top (f a)) :
    g.Traverses top (m >>= f) :=
  ChronM.Goes.bind heeds_blocks hm hf

protected theorem pure (a : α) : g.Traverses top (pure a : ChronM ω α) :=
  ChronM.Goes.pure a

theorem quietly {n : MarkM ω α} (hn : Respects Marking.Proceeds n)
    (hsafe : ∀ s, Yields n s (fun _ _ => True) fun _ _ => False) :
    g.Traverses top (ChronM.quietly n) :=
  ChronM.Goes.of_safe (ChronM.respects_quietly (fun _ _ => .quiet) hn)
    fun c => ChronM.yields_quietly.mpr (hsafe c.toMarking)

end Traverses

end Graph

namespace ChronM

open Chronicle Marking MarkPhase.Graph

variable {g : Graph} {top id : ShapeId} {parent : Option Thing}

theorem traverses_setLabel (label : Label) :
    g.Traverses top (quietly (MarkM.setLabel label) : ChronM ω Unit) :=
  .quietly ((MarkM.lasting_proceeds {}).setLabel label) fun _ => trivial

variable (hreadable : g.Readable) (htwinned : g.Twinned)

include hreadable htwinned

theorem traverses_pushShape (h : g.Names top id.thing) :
    g.Traverses top (pushShape g parent id : ChronM ω Unit) := by
  refine fun c => (goesAlong_pushShape hreadable htwinned h parent c).mono (fun _ d hend => ?_)
    fun _ d hend => ?_
  · obtain ⟨line, stop, hstretch, htakes⟩ := hend
    exact htakes.descends hstretch.free hstretch.nodup
  · obtain ⟨⟨line, stop, lost, hstretch, -, htakes⟩, hhalts⟩ := hend
    exact ⟨htakes.descends hstretch.free hstretch.nodup, fun horderly => (hhalts horderly).blocks⟩

/-- Visits that report no other thing than the shape. -/
theorem traverses_follow {visits : List Visit}
    (hvisits : ∀ visit ∈ visits, visit = .report top.thing ∨ ∃ label, visit = .setLabel label) :
    g.Traverses top (follow g (pushThing g none) visits : ChronM ω Unit) := by
  induction visits with
  | nil => exact .pure _
  | cons visit visits ih =>
    refine .bind ?_ fun _ => ih fun other hother => hvisits other (List.mem_cons_of_mem _ hother)
    rcases hvisits visit (List.mem_cons_self ..) with rfl | ⟨label, rfl⟩
    · have hreport : g.Traverses top (do
          pushThing g none top.thing
          quietly (MarkM.setLabel .blank) : ChronM ω Unit) :=
        .bind (traverses_pushShape hreadable htwinned .top) fun _ => traverses_setLabel .blank
      rw [ChronM.visit]
      cases hthing : g.objection? top.thing with
      | none => exact hreport
      | some fault =>
        exact fun c => ⟨refl_of _ c, fun _ => .inl (Names.top.dangles_of_objection hthing)⟩
    · exact traverses_setLabel label

end ChronM

/-- The call has a marker mark the shape and nothing else. -/
inductive MarkingCall.MarksShape (id : ShapeId) : MarkingCall → Prop
  | thing (name : String) : MarksShape id (.thing name id.thing)
  | unnamed : MarksShape id (.unnamed id.thing)
  | root (name : String) : MarksShape id (.root name (some id.thing))

theorem ChronM.traverses_make {g : Graph} (hreadable : g.Readable) (htwinned : g.Twinned)
    {top : ShapeId} {call : MarkingCall} (hcall : call.MarksShape top) :
    g.Traverses top (make g call : ChronM ω Unit) := by
  refine .bind (.quietly .get fun _ => trivial) fun s =>
    traverses_follow hreadable htwinned fun visit hvisit => ?_
  have hedge : ∀ label, visit ∈ edgeVisits label (some top.thing) →
      visit = .report top.thing ∨ ∃ label, visit = .setLabel label := fun label hmem =>
    (List.mem_cons.mp hmem).elim (fun hlabel => .inr ⟨label, hlabel⟩)
      fun hreport => .inl (List.mem_singleton.mp hreport)
  cases hcall with
  | thing name => exact hedge _ hvisit
  | unnamed => exact .inl (List.mem_singleton.mp hvisit)
  | root name => exact hedge _ hvisit

namespace Graph

/-- A marker that makes the call, from the state `s` on, scans no shape more than once. It
ends, or it stops because something that the lineage names is not there or because a segment
of its stack cannot be allocated. -/
def MarksOnce (g : Graph) (top : ShapeId) (call : MarkingCall) (s : Marking ω) : Prop :=
  ∃ c : Chronicle ω, (∀ id : ShapeId, c.scans id.thing ≤ 1) ∧
    ((ChronM.make g call { toMarking := s } = .ok () c ∧ MarkM.make g call s = .ok () c.toMarking) ∨
      ∃ fault, ChronM.make g call { toMarking := s } = .error fault c ∧
        MarkM.make g call s = .error fault c.toMarking ∧ g.Blocks top s fault)

/-- The walk along the lineage passes its shapes one after the other and none of them twice.
A tracer that is shown it ends, or it stops because something that the lineage names is not
there. -/
def TracesOnce (g : Graph) (top : ShapeId) : Prop :=
  ∃ line, g.Trail (some top) line ∧ line.Nodup ∧ lineageVisits g top = visitsAlong g none line ∧
    ∀ t, Yields (TraceM.make g (.lineage top)) t (fun _ _ => True)
      fun fault _ => g.Dangles top fault

/-- No shape has had more than its one chance when a marker stops. -/
theorem Passes.marksOnce {g : Graph} {top : ShapeId} {call : MarkingCall} {s : Marking ω}
    (h : g.Passes top { toMarking := s } (ChronM.make g call)) (horderly : s.Orderly) :
    g.MarksOnce top call s := by
  have honce : ∀ c : Chronicle ω, Chronicle.Descends { toMarking := s } c →
      ∀ id : ShapeId, c.scans id.thing ≤ 1 := by
    intro c hc id
    have hstart : Chronicle.chances { toMarking := s } id ≤ 1 := by
      change 0 + (if _ then 0 else 1) ≤ 1
      split <;> omega
    exact Nat.le_trans (Nat.le_add_right _ _) (Nat.le_trans (hc.chances id) hstart)
  have herases := ChronM.erases_make g call { toMarking := s }
  cases hrun : ChronM.make g call { toMarking := s } with
  | ok _ c =>
    rw [hrun] at herases
    exact ⟨c, honce c (h.of_ok hrun), Or.inl ⟨hrun, herases.symm⟩⟩
  | error fault c =>
    rw [hrun] at herases
    obtain ⟨hdescends, hblocks⟩ := h.of_error hrun
    exact ⟨c, honce c hdescends, Or.inr ⟨fault, hrun, herases.symm, hblocks horderly⟩⟩

end Graph

namespace Heap

/-- On a heap that any calls have built with any ids, both walks along the lineage of a shape
come to an end, and neither goes over a shape twice: that of a marker, at whatever point of its
work it is given the shape, and that of a tracer, provided that the lineage does not come back
to a shape that it has passed. -/
theorem lineage_walks_end (history : List Construction) (top : ShapeId) :
    let g := (built history).graph
    (∀ (ω : Type) (s : Marking ω) (_ : s.Origin g) (call : MarkingCall), call.MarksShape top →
      g.MarksOnce top call s) ∧
    (g.Straight top → g.TracesOnce top) := by
  intro g
  refine ⟨fun ω s origin call hcall => ?_, Graph.Straight.exists_line⟩
  exact (ChronM.traverses_make (readable_built history) (twinned_built history) hcall _).marksOnce
    origin.orderly

/-- Two shapes of which the first one was made upon the second, and both with an accessor that
was not there yet. -/
def forward : List Construction :=
  [.baseShape .atoms none (some ⟨0⟩) none none, .shape .atoms ⟨0⟩ (.object ⟨0⟩) (some ⟨1⟩),
    .shape .atoms ⟨0⟩ .void none, .typeObject .atoms [] none none none,
    .object .atoms ⟨0⟩ ⟨0⟩ 0]

theorem lineage_walks_end_sample :
    let g := (built forward).graph
    let L : Launch Unit := .sample 1 (some ⟨.rangeless, ()⟩)
    let call : MarkingCall := .thing "shape" (Ref.thing (⟨0⟩ : ShapeId))
    (L.origin g).commands = [] ∧ call.MarksShape ⟨0⟩ ∧ g.MarksOnce ⟨0⟩ call L.start ∧
      g.Straight ⟨0⟩ ∧ g.TracesOnce ⟨0⟩ := by
  intro g L call
  have hcall : call.MarksShape ⟨0⟩ := .thing "shape"
  have hline : g.Trail (some ⟨0⟩) [⟨0⟩, ⟨1⟩] := .step rfl (.step rfl .ended)
  obtain ⟨hmarks, htraces⟩ := lineage_walks_end forward ⟨0⟩
  exact ⟨rfl, hcall, hmarks Unit L.start (L.origin g) call hcall, hline.straight,
    htraces hline.straight⟩

/-- A shape that was made upon itself. -/
def looped : List Construction :=
  [.baseShape .atoms none none none none, .shape .atoms ⟨0⟩ .void (some ⟨0⟩)]

/-- However many steps a walk along the looped lineage may make, they are too few. -/
theorem lineageFrom_looped (steps : Nat) (lastParent : Option ObjectId) :
    Visit.broken .endless ∈ lineageFrom (built looped).graph steps lastParent (some ⟨0⟩) := by
  induction steps generalizing lastParent with
  | zero => exact List.mem_singleton.mpr rfl
  | succ steps ih => exact List.mem_append_right _ (ih _)

/-- A shape with an accessor. -/
def accessed : List Construction :=
  [.baseShape .atoms none none none none, .shape .atoms ⟨0⟩ .void none,
    .typeObject .atoms [] none none none, .object .atoms ⟨0⟩ ⟨0⟩ 0,
    .baseShape .atoms none (some ⟨0⟩) none none, .shape .atoms ⟨1⟩ .void none]

/-- A tracer that is shown a lineage that comes back does not end, and where no segment fits
memory a marker is stopped although nothing is missing. -/
theorem lineage_walks_fail :
    let g := (built looped).graph
    let h := (built accessed).graph
    let L : Launch Unit := .cramped none
    (g.contains (Ref.thing (⟨0⟩ : ShapeId)) = true ∧
      (∀ steps, Visit.broken .endless ∈ lineageFrom g steps none (some ⟨0⟩)) ∧
      ∃ t, TraceM.make g (.lineage ⟨0⟩) {} = .error .endless t) ∧
    Grounded accessed ∧ ¬ h.Dangles ⟨1⟩ .capacityOverflow ∧
      ∃ t, MarkM.make h (.thing "shape" (Ref.thing (⟨1⟩ : ShapeId))) L.start =
        .error .capacityOverflow t := by
  intro g h L
  have hendless : ∃ t, TraceM.make g (.lineage ⟨0⟩) {} = .error .endless t :=
    Yields.exists_stop (by decide +kernel)
  have hstop : ∃ t, MarkM.make h (.thing "shape" (Ref.thing (⟨1⟩ : ShapeId))) L.start =
      .error .capacityOverflow t := Yields.exists_stop (by decide +kernel)
  exact ⟨⟨by decide +kernel, fun steps => lineageFrom_looped steps none, hendless⟩,
    by decide +kernel, nofun, hstop⟩

end Heap

end MarkPhase
