import Mathlib.Data.List.Destutter
import MarkPhase.Proofs.Lineages
import MarkPhase.Proofs.Surveys

/-!
What the walk along a lineage reports. It passes over shapes, base shapes and twins and
holds back a parent that has just been reported, and still it reports the same objects and
strings as an exploration that expands every shape and base shape: a twin has nothing that
its owner has not, and a parent is held back only where it has been reported before.
-/

namespace MarkPhase

/-- A shape of a lineage together with its base shape. -/
structure LineageStep where
  shape : ShapeCell
  base : BaseShapeCell

namespace LineageStep

/-- The edges that a step adds to a walk whatever has come before it. -/
def edges (step : LineageStep) : List Edge :=
  (refThings step.base.getter).map (Edge.mk · (.named "getter")) ++
    (refThings step.base.setter).map (Edge.mk · (.named "setter")) ++
    step.shape.property.thing?.toList.map (Edge.mk · (.named "propid"))

/-- The objects and strings that a step refers to. -/
def things (step : LineageStep) : List Thing :=
  refThings step.base.getter ++ refThings step.base.setter ++ refThings step.base.parent ++
    step.shape.property.thing?.toList

theorem kind_of_mem_things {step : LineageStep} {thing : Thing} (h : thing ∈ step.things) :
    thing.kind = .object ∨ thing.kind = .string := by
  simp only [things, List.mem_append, mem_refThings, Option.mem_toList] at h
  rcases h with ((⟨_, _, rfl⟩ | ⟨_, _, rfl⟩) | ⟨_, _, rfl⟩) | hproperty
  · exact Or.inl rfl
  · exact Or.inl rfl
  · exact Or.inl rfl
  · cases hid : step.shape.property <;> rw [hid] at hproperty <;> cases hproperty
    · exact Or.inr rfl
    · exact Or.inl rfl

end LineageStep

namespace Graph

variable {g : Graph}

/-- The steps of the lineage that goes on at a shape, or is at its end. -/
inductive Lineage (g : Graph) : Option ShapeId → List LineageStep → Prop
  | ended : Lineage g none []
  | step {id : ShapeId} {shape : ShapeCell} {base : BaseShapeCell} {rest : List LineageStep} :
      g.shape? id = some shape → g.baseShape? shape.base = some base →
      Lineage g shape.previous rest → Lineage g (some id) (⟨shape, base⟩ :: rest)

/-- What is found from a thing by looking at the children of shapes and of base shapes and
of nothing else. -/
inductive Beneath (g : Graph) (top : Thing) : Thing → Prop
  | top : Beneath g top top
  | shown {parent : Thing} {edge : Edge} : Beneath g top parent →
      parent.kind = .shape ∨ parent.kind = .baseShape → edge ∈ g.shownEdges parent →
      Beneath g top edge.thing

/-- A lineage comes to its end, in no more steps than shapes can have indices. -/
theorem Layered.exists_lineage (hlayered : g.Layered) (h : g.Sound) (steps : Nat)
    {next : Option ShapeId}
    (hnext : ∀ id, next = some id → g.contains id.thing = true ∧ id.index < steps) :
    ∃ line, g.Lineage next line ∧ line.length ≤ steps := by
  induction steps generalizing next with
  | zero =>
    cases next with
    | none => exact ⟨[], .ended, Nat.le_refl 0⟩
    | some id => exact absurd (hnext id rfl).2 (Nat.not_lt_zero _)
  | succ steps ih =>
    cases next with
    | none => exact ⟨[], .ended, Nat.zero_le _⟩
    | some id =>
      obtain ⟨hcontains, hindex⟩ := hnext id rfl
      obtain ⟨shape, base, hshape, hbase, hreferences, -⟩ := h.exists_cells hcontains
      obtain ⟨rest, hrest, hlength⟩ := ih fun previous hprevious =>
        ⟨contains_previous hreferences previous hprevious,
          Nat.lt_of_lt_of_le (hlayered id shape hshape previous hprevious)
            (Nat.le_of_lt_succ hindex)⟩
      exact ⟨_, .step hshape hbase hrest, Nat.succ_le_succ hlength⟩

end Graph

/-! The edges that a tracer receives, one visit after the other. -/

/-- A tracer that is shown the visits receives these edges, and nothing stops it. -/
def Receives (g : Graph) (visits : List Visit) (edges : List Edge) : Prop :=
  ∀ s, Yields (visits.forM (TraceM.visit g)) s
    (fun _ t => t.edges.toList = s.edges.toList ++ edges) fun _ _ => False

namespace Receives

variable {g : Graph} {visits others : List Visit} {edges further : List Edge}

theorem nil : Receives g [] [] :=
  fun s => (List.append_nil s.edges.toList).symm

theorem append (h : Receives g visits edges) (hothers : Receives g others further) :
    Receives g (visits ++ others) (edges ++ further) := by
  intro s
  rw [yields_forM_append]
  refine (h s).imp fun _ t ht => (hothers t).imp fun _ u hu => ?_
  rw [hu, ht, List.append_assoc]

theorem edgeVisits {thing : Option Thing}
    (hfree : ∀ one, thing = some one → g.objection? one = none) (label : Label) :
    Receives g (edgeVisits label thing) (thing.toList.map (Edge.mk · label)) := by
  intro s
  cases thing with
  | none => exact (List.append_nil s.edges.toList).symm
  | some one =>
    change Yields (TraceM.setLabel label >>= fun _ => TraceM.visit g (.report one) >>=
      fun _ => List.forM [] (TraceM.visit g)) s _ _
    simp only [TraceM.setLabel, TraceM.visit, TraceM.receive, hfree one rfl, yields_bind,
      yields_modify]
    exact Array.toList_push

theorem fieldVisits {kind : Kind} {ref : Option (Ref kind)}
    (hfree : ∀ one ∈ refThings ref, g.objection? one = none) (name : String) :
    Receives g (fieldVisits name ref) ((refThings ref).map (Edge.mk · (.named name))) := by
  cases ref with
  | none => exact nil
  | some id =>
    refine edgeVisits (fun one hone => hfree one ?_) (.named name)
    obtain rfl := Option.some.inj hone
    exact List.mem_singleton_self _

end Receives

/-! The edges of a walk. -/

/-- The edges that a walk along the steps reports. A parent is left out where it is the one
that was last reported. -/
def edgesAlong (lastParent : Option ObjectId) : List LineageStep → List Edge
  | [] => []
  | step :: rest =>
    (refThings step.base.getter).map (Edge.mk · (.named "getter")) ++
    (refThings step.base.setter).map (Edge.mk · (.named "setter")) ++
    (if step.base.parent = lastParent then []
      else (refThings step.base.parent).map (Edge.mk · (.named "parent"))) ++
    step.shape.property.thing?.toList.map (Edge.mk · (.named "propid")) ++
    edgesAlong (step.base.parent.or lastParent) rest

section EdgesAlong

variable {line : List LineageStep} {thing : Thing}

/-- The accessors and the property ids come in the order of the steps. -/
theorem filter_edgesAlong (lastParent : Option ObjectId) :
    (edgesAlong lastParent line).filter (fun edge => edge.label ≠ .named "parent") =
      line.flatMap LineageStep.edges := by
  induction line generalizing lastParent with
  | nil => rfl
  | cons step rest ih =>
    have hheld : ((if step.base.parent = lastParent then []
        else (refThings step.base.parent).map (Edge.mk · (.named "parent"))).filter
          fun edge => edge.label ≠ .named "parent") = [] := by
      split <;> simp
    rw [edgesAlong]
    simp only [List.filter_append, hheld, ih, List.flatMap_cons, LineageStep.edges]
    simp [List.filter_map, Function.comp_def]

/-- The parents that a walk reports. -/
def parentsAlong (lastParent : Option ObjectId) (line : List LineageStep) : List Thing :=
  ((edgesAlong lastParent line).filter fun edge => edge.label = .named "parent").map Edge.thing

theorem parentsAlong_cons (lastParent : Option ObjectId) (step : LineageStep)
    (rest : List LineageStep) : parentsAlong lastParent (step :: rest) =
      (if step.base.parent = lastParent then [] else refThings step.base.parent) ++
        parentsAlong (step.base.parent.or lastParent) rest := by
  unfold parentsAlong
  rw [edgesAlong]
  simp only [List.filter_append, List.map_append]
  split <;> simp [List.filter_map, Function.comp_def]

/-- After a parent has been reported, it is held back until another parent turns up. -/
theorem parentsAlong_some (last : ObjectId) :
    last.thing :: parentsAlong (some last) line =
      ((line.filterMap (·.base.parent)).destutter' (· ≠ ·) last).map Ref.thing := by
  induction line generalizing last with
  | nil => rfl
  | cons step rest ih =>
    rw [parentsAlong_cons]
    cases hparent : step.base.parent with
    | none => simpa [hparent, refThings] using ih last
    | some parent =>
      have hparents : (step :: rest).filterMap (·.base.parent) =
        parent :: rest.filterMap (·.base.parent) := List.filterMap_cons_some hparent
      rw [hparents]
      by_cases heq : parent = last
      · subst heq
        simpa using ih parent
      · rw [List.destutter'_cons_pos _ (Ne.symm heq), List.map_cons, ← ih parent]
        simp [heq, refThings]

/-- The parents that a walk reports are those of the steps without the repetitions. -/
theorem parentsAlong_none : parentsAlong none line =
    ((line.filterMap (·.base.parent)).destutter (· ≠ ·)).map Ref.thing := by
  induction line with
  | nil => rfl
  | cons step rest ih =>
    rw [parentsAlong_cons]
    cases hparent : step.base.parent with
    | none => simpa [hparent] using ih
    | some parent =>
      have hparents : (step :: rest).filterMap (·.base.parent) =
        parent :: rest.filterMap (·.base.parent) := List.filterMap_cons_some hparent
      rw [hparents, List.destutter_cons', ← parentsAlong_some]
      simp [refThings]

/-- A walk reports of its first step what the step refers to, but for a parent that was
reported before. -/
private theorem mem_edgesAlong_cons (lastParent : Option ObjectId) (step : LineageStep)
    (rest : List LineageStep) :
    (thing ∈ (edgesAlong lastParent (step :: rest)).map Edge.thing ∨
        thing ∈ refThings lastParent) ↔
      (thing ∈ step.things ∨ thing ∈ refThings lastParent) ∨
        thing ∈ (edgesAlong (step.base.parent.or lastParent) rest).map Edge.thing := by
  rw [edgesAlong]
  simp only [List.map_append, List.mem_append, List.map_map, Function.comp_def, List.map_id',
    LineageStep.things]
  split
  · rename_i heq
    rw [heq]
    simp only [List.map_nil, List.not_mem_nil]
    tauto
  · simp only [List.map_map, Function.comp_def, List.map_id']
    tauto

/-- What is held back has been reported, or was reported before the walk began. -/
theorem mem_edgesAlong (lastParent : Option ObjectId) :
    (thing ∈ (edgesAlong lastParent line).map Edge.thing ∨ thing ∈ refThings lastParent) ↔
      ((∃ step ∈ line, thing ∈ step.things) ∨ thing ∈ refThings lastParent) := by
  induction line generalizing lastParent with
  | nil => simp [edgesAlong]
  | cons step rest ih =>
    have hnext : thing ∈ refThings (step.base.parent.or lastParent) →
        thing ∈ step.things ∨ thing ∈ refThings lastParent := by
      cases hparent : step.base.parent with
      | none => exact Or.inr
      | some parent =>
        intro hmem
        have hreported : thing ∈ refThings step.base.parent := by
          rw [hparent]
          exact hmem
        exact Or.inl (by simp only [LineageStep.things, List.mem_append, hreported, or_true,
          true_or])
    have hrest := ih (step.base.parent.or lastParent)
    rw [mem_edgesAlong_cons, List.exists_mem_cons_iff]
    constructor
    · rintro (hfirst | hlater)
      · tauto
      · rcases hrest.mp (Or.inl hlater) with hthings | hmem
        · exact Or.inl (Or.inr hthings)
        · have := hnext hmem
          tauto
    · rintro ((hfirst | hlater) | hlast)
      · exact Or.inl (Or.inl hfirst)
      · rcases hrest.mpr (Or.inl hlater) with hthings | hmem
        · exact Or.inr hthings
        · exact Or.inl (hnext hmem)
      · exact Or.inl (Or.inr hlast)

end EdgesAlong

/-! The walk and the exploration. -/

namespace Graph

variable {g : Graph} {line : List LineageStep} {next : Option ShapeId} {top thing : Thing}

/-- The walk receives the edges of the steps of its lineage. -/
theorem Lineage.receives (hline : g.Lineage next line) (h : g.Sound) {steps : Nat}
    (hsteps : line.length ≤ steps) (lastParent : Option ObjectId) :
    Receives g (lineageFrom g steps lastParent next) (edgesAlong lastParent line) := by
  induction hline generalizing steps lastParent with
  | ended =>
    unfold lineageFrom
    exact .nil
  | @step id shape base rest hshape hbase _ ih =>
    obtain ⟨fuel, rfl⟩ : ∃ fuel, steps = fuel + 1 :=
      Nat.exists_eq_add_one_of_ne_zero (Nat.ne_of_gt (Nat.lt_of_lt_of_le (Nat.succ_pos _) hsteps))
    have hfree : ∀ one ∈ base.references, g.objection? one = none :=
      fun one hone => h.objection?_eq_none ((h.baseShape hbase).1.2 one hone)
    have hproperty : ∀ one, shape.property.thing? = some one → g.objection? one = none :=
      fun one hone => h.objection?_eq_none ((h.shape hshape).2 one (by
        simp [ShapeCell.references, hone]))
    have hparent : Receives g (if base.parent = lastParent then []
          else fieldVisits "parent" base.parent)
        (if base.parent = lastParent then []
          else (refThings base.parent).map (Edge.mk · (.named "parent"))) := by
      split
      · exact .nil
      · exact .fieldVisits (fun one hone => hfree one (by
          simp only [BaseShapeCell.references, List.mem_append, hone, or_true, true_or])) _
    rw [lineageFrom, hshape, edgesAlong]
    simp only [hbase]
    refine ((((Receives.fieldVisits (fun one hone => hfree one ?_) _).append
      (.fieldVisits (fun one hone => hfree one ?_) _)).append hparent).append
      (.edgeVisits hproperty _)).append (ih (Nat.le_of_succ_le_succ hsteps) _)
    · simp only [BaseShapeCell.references, List.mem_append, hone, true_or]
    · simp only [BaseShapeCell.references, List.mem_append, hone, true_or, or_true]

namespace Beneath

theorem child (h : g.Beneath top thing) (hkind : thing.kind = .shape ∨ thing.kind = .baseShape)
    {child : Thing} (hchild : g.Child thing child) : g.Beneath top child := by
  obtain ⟨edge, hedge, rfl, -⟩ := hchild
  exact h.shown hkind hedge

/-- Whatever a step of the lineage refers to is found by exploring. -/
theorem of_lineage (hline : g.Lineage next line) (h : g.Sound)
    (hnext : ∀ id, next = some id → g.Beneath top id.thing) {step : LineageStep}
    (hstep : step ∈ line) (hthing : thing ∈ step.things) : g.Beneath top thing := by
  induction hline with
  | ended => exact absurd hstep List.not_mem_nil
  | @step id shape base rest hshape hbase _ ih =>
    have hchild : ∀ other ∈ shape.references, g.Beneath top other := fun other hother =>
      (hnext id rfl).child (Or.inl rfl) ((h.child_shape hshape).mpr hother)
    rcases List.mem_cons.mp hstep with rfl | hrest
    · simp only [LineageStep.things, List.mem_append] at hthing
      rcases hthing with hfield | hproperty
      · have hbelow : g.Beneath top shape.base.thing :=
          hchild _ (by simp [ShapeCell.references])
        refine hbelow.child (Or.inr rfl) ((h.child_baseShape hbase).mpr ?_)
        simp only [BaseShapeCell.references, List.mem_append, hfield, true_or]
      · exact hchild thing (by simp only [ShapeCell.references, List.mem_cons, List.mem_append,
          hproperty, true_or, or_true])
    · refine ih (fun previous hprevious => hchild _ ?_) hrest
      simp [ShapeCell.references, hprevious]

end Beneath

/-- The base shape has the accessors and the parent of another. -/
def Repeats (base other : BaseShapeCell) : Prop :=
  base.getter = other.getter ∧ base.setter = other.setter ∧ base.parent = other.parent

/-- What an exploration of a lineage finds: its shapes, their base shapes and the twins of
these, and what its steps refer to. -/
inductive Found (g : Graph) (line : List LineageStep) : Thing → Prop
  | shape {id : ShapeId} {rest : List LineageStep} :
      g.Lineage (some id) rest → rest ⊆ line → Found g line id.thing
  | base {id : BaseShapeId} {base : BaseShapeCell} {step : LineageStep} :
      g.baseShape? id = some base → Repeats base step.base → step ∈ line → Found g line id.thing
  | leaf {step : LineageStep} {thing : Thing} : step ∈ line → thing ∈ step.things →
      Found g line thing

namespace Found

/-- Nothing is found below a shape that is not found along its lineage. -/
theorem below_shape (h : g.Sound) {id : ShapeId} {rest : List LineageStep}
    (hline : g.Lineage (some id) rest) (hsub : rest ⊆ line) {child : Thing}
    (hchild : g.Child id.thing child) : Found g line child := by
  cases hline with
  | step hshape hbase hrest =>
    have hfirst := hsub (List.mem_cons_self ..)
    rw [h.child_shape hshape] at hchild
    simp only [ShapeCell.references, List.mem_cons, List.mem_append, mem_refThings] at hchild
    rcases hchild with rfl | hproperty | ⟨previous, hprevious, rfl⟩
    · exact .base hbase ⟨rfl, rfl, rfl⟩ hfirst
    · exact .leaf hfirst (by simp only [LineageStep.things, List.mem_append, hproperty, or_true])
    · rw [hprevious] at hrest
      exact .shape hrest fun step hstep => hsub (List.mem_cons_of_mem _ hstep)

/-- A twin repeats what its owner has. -/
theorem below_base (h : g.Sound) {id : BaseShapeId} {base : BaseShapeCell} {step : LineageStep}
    (hbase : g.baseShape? id = some base) (hrepeats : Repeats base step.base)
    (hstep : step ∈ line) {child : Thing} (hchild : g.Child id.thing child) :
    Found g line child := by
  obtain ⟨hgetter, hsetter, hparent⟩ := hrepeats
  rw [h.child_baseShape hbase, BaseShapeCell.references, hgetter, hsetter, hparent,
    List.mem_append] at hchild
  rcases hchild with hfield | htwin
  · exact .leaf hstep (by simp only [LineageStep.things, List.mem_append, hfield, true_or])
  · obtain ⟨twin, howned, rfl⟩ := mem_refThings.mp htwin
    obtain ⟨cell, hcell, hagrees⟩ := (h.baseShape hbase).2 twin howned
    exact .base hcell ⟨hagrees.getter.trans hgetter, hagrees.setter.trans hsetter,
      hagrees.parent.trans hparent⟩ hstep

/-- Exploring finds nothing else. -/
theorem of_beneath (h : g.Sound) {id : ShapeId} (hline : g.Lineage (some id) line)
    (hbeneath : g.Beneath id.thing thing) : Found g line thing := by
  induction hbeneath with
  | top => exact .shape hline (List.Subset.refl _)
  | @shown parent edge _ hkind hedge ih =>
    have hnotType : parent.kind ≠ .typeObject := by
      rcases hkind with hkind | hkind <;> rw [hkind] <;> decide
    cases ih with
    | @shape id rest hline hsub =>
      cases hline with
      | step hshape hbase hrest =>
        exact below_shape h (.step hshape hbase hrest) hsub
          (h.child_of_shown (contains_of_getElem? rfl hshape) hnotType hedge)
    | base hbase hrepeats hstep =>
      exact below_base h hbase hrepeats hstep
        (h.child_of_shown (contains_of_getElem? rfl hbase) hnotType hedge)
    | leaf hstep hthing =>
      have := LineageStep.kind_of_mem_things hthing
      grind

end Found

/-- The objects and strings that exploring finds are those that the steps refer to. -/
theorem Lineage.mem_things_iff {id : ShapeId} (hline : g.Lineage (some id) line) (h : g.Sound) :
    (∃ step ∈ line, thing ∈ step.things) ↔
      (thing.kind = .object ∨ thing.kind = .string) ∧ g.Beneath id.thing thing := by
  constructor
  · rintro ⟨step, hstep, hthing⟩
    refine ⟨LineageStep.kind_of_mem_things hthing, .of_lineage hline h ?_ hstep hthing⟩
    rintro other heq
    obtain rfl := Option.some.inj heq
    exact .top
  · rintro ⟨hkind, hbeneath⟩
    cases Found.of_beneath h hline hbeneath with
    | shape => rcases hkind with hkind | hkind <;> cases hkind
    | base => rcases hkind with hkind | hkind <;> cases hkind
    | leaf hstep hthing => exact ⟨_, hstep, hthing⟩

end Graph

namespace Heap

variable {history : List Construction} {shape : ShapeId}

/-- The walk along a lineage ends and leaves every mark as it is. It reports the objects and
strings that exploring finds when it expands shapes and base shapes only; it reports the
accessors and property ids of the lineage step by step, and its parents without the
repetitions. -/
theorem lineage_reports (h : Grounded history)
    (hshape : (built history).graph.contains shape.thing = true) (survey : Survey) :
    let g := (built history).graph
    ∃ (final : Survey) (line : List LineageStep) (new : List Edge),
      SurveyM.make g (.lineage shape) survey = .ok () final ∧
      TraceM.make g (.lineage shape) survey.toTracer = .ok () final.toTracer ∧
      final.toLedger = survey.toLedger ∧
      final.edges.toList = survey.edges.toList ++ new ∧
      (∀ thing, thing ∈ new.map Edge.thing ↔
        (thing.kind = .object ∨ thing.kind = .string) ∧ g.Beneath shape.thing thing) ∧
      g.Lineage (some shape) line ∧
      new.filter (fun edge => edge.label ≠ .named "parent") = line.flatMap LineageStep.edges ∧
      (new.filter fun edge => edge.label = .named "parent").map Edge.thing =
        ((line.filterMap (·.base.parent)).destutter (· ≠ ·)).map Ref.thing := by
  intro g
  have hsound : g.Sound := sound_built h
  have hnext : ∀ id, some shape = some id →
      g.contains id.thing = true ∧ id.index < g.shapes.size + 1 := by
    rintro id heq
    obtain rfl := Option.some.inj heq
    exact ⟨hshape, Nat.lt_succ_of_lt (of_decide_eq_true hshape)⟩
  obtain ⟨line, hline, hlength⟩ := (layered_built h).exists_lineage hsound _ hnext
  obtain ⟨_, tracer, hmake, hedges⟩ :=
    (hline.receives hsound hlength none survey.toTracer).exists_post
  have htrace : TraceM.make g (.lineage shape) survey.toTracer = .ok () tracer := hmake
  refine ⟨{ survey with toTracer := tracer }, line, edgesAlong none line, ?_, htrace, rfl,
    hedges, fun thing => ?_, hline, filter_edgesAlong none, parentsAlong_none⟩
  · rw [SurveyM.make_eq, SurveyM.apart, htrace]
  · have hmem : (thing ∈ (edgesAlong none line).map Edge.thing ∨ thing ∈ refThings _) ↔ _ :=
      mem_edgesAlong none
    rw [← hline.mem_things_iff hsound]
    simpa [refThings] using hmem

/-- A lineage of three shapes. The first and the last of them have an owned base shape and
its twin, and between them stands a shape without accessors and without a parent. -/
def ancestry : List Construction :=
  [.compartment "c", .baseShape ⟨1⟩ none none none none, .shape ⟨1⟩ ⟨0⟩ .void none,
    .typeObject ⟨1⟩ [] none none none, .object ⟨1⟩ ⟨0⟩ ⟨0⟩ 0, .object ⟨1⟩ ⟨0⟩ ⟨0⟩ 0, .atom "x",
    .baseShape ⟨1⟩ none (some ⟨0⟩) none (some ⟨1⟩), .ownedBaseShape ⟨1⟩,
    .shape ⟨1⟩ ⟨1⟩ (.string ⟨0⟩) none, .shape ⟨1⟩ ⟨0⟩ .void (some ⟨1⟩),
    .shape ⟨1⟩ ⟨2⟩ (.string ⟨0⟩) (some ⟨2⟩)]

theorem lineage_reports_sample :
    let g := (built ancestry).graph
    let survey : Survey := { marks := {}, filenames := ⟨[("a.js", false)]⟩ }
    Grounded ancestry ∧ g.contains ⟨.shape, 3⟩ = true ∧
    ∃ (final : Survey) (line : List LineageStep) (new : List Edge),
      SurveyM.make g (.lineage ⟨3⟩) survey = .ok () final ∧
      final.toLedger = survey.toLedger ∧ final.edges.toList = new ∧
      (∀ thing, thing ∈ new.map Edge.thing ↔
        (thing.kind = .object ∨ thing.kind = .string) ∧ g.Beneath ⟨.shape, 3⟩ thing) ∧
      g.Lineage (some ⟨3⟩) line ∧
      (new.filter fun edge => edge.label = .named "parent").map Edge.thing =
        ((line.filterMap (·.base.parent)).destutter (· ≠ ·)).map Ref.thing := by
  intro g survey
  have grounded : Grounded ancestry := by decide +kernel
  have hshape : g.contains (Ref.thing (⟨3⟩ : ShapeId)) = true := by decide +kernel
  obtain ⟨final, line, new, hmake, -, hledger, hedges, hthings, hline, -, hparents⟩ :=
    lineage_reports grounded hshape survey
  exact ⟨grounded, hshape, final, line, new, hmake, hledger, hedges, hthings, hline, hparents⟩

/-- Each accessor and each property id comes up twice, the parent once. -/
example : Yields (TraceM.make (built ancestry).graph (.lineage ⟨3⟩)) {}
    (fun _ t => t.edges.toList =
      [⟨⟨.object, 0⟩, .named "getter"⟩, ⟨⟨.object, 1⟩, .named "parent"⟩,
        ⟨⟨.string, 0⟩, .named "propid"⟩, ⟨⟨.object, 0⟩, .named "getter"⟩,
        ⟨⟨.string, 0⟩, .named "propid"⟩]) fun _ _ => False := by
  decide +kernel

end Heap

end MarkPhase
