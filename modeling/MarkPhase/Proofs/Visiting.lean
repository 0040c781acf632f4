import MarkPhase.Proofs.Scans

/-!
Following visits. A marker that follows the visits of a tracer covers every thing they
report, as long as no visit fails. Scripts are scanned in this way when they are shaded,
XML nodes and delayed things when their turn comes.
-/

namespace MarkPhase

namespace Graph

variable {g : Graph}

theorem contains_of_objection? {thing : Thing} (h : g.objection? thing = none) :
    g.contains thing = true := by
  rw [contains_iff_exists]
  unfold objection? at h
  split at h
  · cases h
  · exact ⟨_, ‹_›⟩

/-- No script refers to a script. -/
theorem kind_of_report_script {id : ScriptId} {isMarker : Bool} {child : Thing}
    (hmem : .report child ∈ scriptVisits g isMarker id) : child.kind ≠ .script := by
  cases hid : g.script? id with
  | none => simp [scriptVisits, hid] at hmem
  | some script =>
    have href := report_mem_scriptVisits hid hmem
    have hvalue : ∀ value : Value, value.thing? = some child → child.kind ≠ .script := by
      intro value hvalue
      cases value <;> cases hvalue <;> simp [Ref.thing]
    have hlink : ∀ {kind : Kind} {ref : Option (Ref kind)}, child ∈ refThings ref →
        kind ≠ .script → child.kind ≠ .script := by
      intro kind ref hthing hkind
      obtain ⟨other, -, rfl⟩ := mem_refThings.mp hthing
      exact hkind
    simp only [ScriptCell.references, List.mem_append, List.mem_flatMap,
      List.mem_filterMap] at href
    rcases href with (((((((⟨ref, -, hthing⟩ | ⟨ref, -, hthing⟩) | ⟨ref, -, hthing⟩) |
      ⟨value, -, hthing⟩) | hthing) | hthing) | hthing) | ⟨value, -, hthing⟩)
    · exact hlink hthing (by decide)
    · exact hlink hthing (by decide)
    · exact hlink hthing (by decide)
    · exact hvalue value hthing
    · exact hlink hthing (by decide)
    · exact hlink hthing (by decide)
    · exact hlink hthing (by decide)
    · exact hvalue value hthing

end Graph

variable {ω : Type} {S : Setting ω} {hand : List Duty} {o : Outline} {s : Marking ω}
  {faults : Fault → Marking ω → Prop}

namespace Setting

open MarkM

variable {push : Thing → MarkM ω Unit} {visits : List Visit}

/-- What the visits report is marked in the end. A visit may fail where it reports what is
not on the heap, or where the enumeration could not go on. -/
theorem Tracks.yields_follow (h : S.Tracks hand [] o s)
    (hpush : ∀ thing, .report thing ∈ visits → S.Covers (push thing) [thing])
    (hhome : ∀ thing, .report thing ∈ visits → S.graph.Allowed S.filter thing → S.home thing)
    (hoverflows : ∀ fault t, S.Overflows fault t → faults fault t)
    (hobjection : ∀ thing fault t, .report thing ∈ visits →
      S.graph.objection? thing = some fault → faults fault t)
    (hbroken : ∀ fault t, .broken fault ∈ visits → faults fault t) :
    Yields (follow S.graph push visits) s
      (fun _ => S.Lands o hand [] (S.Reached (visits.filterMap Visit.thing?))) faults := by
  induction visits generalizing o s with
  | nil => exact ⟨o, .refl, h, Terrain.Reached.nil⟩
  | cons visit visits ih =>
    have hrest : ∀ {o' : Outline} {t : Marking ω}, S.Tracks hand [] o' t →
        Yields (follow S.graph push visits) t
          (fun _ => S.Lands o' hand [] (S.Reached (visits.filterMap Visit.thing?))) faults :=
      fun htracks => ih htracks (fun thing hmem => hpush thing (List.mem_cons_of_mem _ hmem))
        (fun thing hmem => hhome thing (List.mem_cons_of_mem _ hmem))
        (fun thing fault t hmem => hobjection thing fault t (List.mem_cons_of_mem _ hmem))
        (fun fault t hmem => hbroken fault t (List.mem_cons_of_mem _ hmem))
    change Yields (MarkM.visit S.graph push visit >>= fun _ => follow S.graph push visits) s _ _
    rw [yields_bind]
    cases visit with
    | setLabel label => exact hrest (h.setLabel label)
    | keepFilename name => exact hrest (h.keepFilename _)
    | broken fault => exact hbroken fault s (List.mem_cons_self ..)
    | report thing =>
      cases hthing : S.graph.objection? thing with
      | some fault =>
        simp only [MarkM.visit, hthing, yields_bind, yields_throw]
        exact hobjection thing fault s (List.mem_cons_self ..) hthing
      | none =>
        simp only [MarkM.visit, hthing, yields_bind]
        have hwelcome : ∀ other ∈ [thing], S.Welcome other := by
          intro other hother
          obtain rfl := List.mem_singleton.mp hother
          exact ⟨Graph.contains_of_objection? hthing, hhome other (List.mem_cons_self ..)⟩
        refine ((hpush thing (List.mem_cons_self ..)).yields h hwelcome).mono ?_ hoverflows
        intro _ t hend
        obtain ⟨o₁, hrun₁, h₁, hreached⟩ := hend
        refine (hrest (h₁.setLabel .blank)).imp fun _ u hlands => ?_
        refine (hlands.imp fun o₂ hrun₂ hothers => ?_).head hrun₁
        exact (hreached.of_run hrun₂).append hothers

theorem covers_follow
    (hpush : ∀ thing, .report thing ∈ visits → S.Covers (push thing) [thing])
    (hbroken : ∀ fault, .broken fault ∉ visits) :
    S.Covers (follow S.graph push visits) (visits.filterMap Visit.thing?) := by
  refine ⟨fun htracks hwelcome => ?_⟩
  refine htracks.yields_follow hpush (fun thing hmem =>
    (hwelcome thing (mem_filterMap_thing?.mpr hmem)).2) (fun _ _ hfault => hfault) ?_ ?_
  · intro thing fault t hmem hfault
    have hcontains := (hwelcome thing (mem_filterMap_thing?.mpr hmem)).1
    rw [S.sound.objection?_eq_none hcontains] at hfault
    cases hfault
  · exact fun fault t hmem => absurd hmem (hbroken fault)

/-- What a marker is shown of a thing covers its children. -/
theorem covers_childVisits {thing : Thing} (hthing : S.graph.contains thing = true)
    (hpush : ∀ child, .report child ∈ childVisits S.graph true thing →
      S.Covers (push child) [child]) :
    S.Covers (follow S.graph push (childVisits S.graph true thing))
      ((childVisits S.graph true thing).filterMap Visit.thing?) :=
  covers_follow hpush (S.sound.broken_notMem hthing true)

theorem welcome_childVisits {thing : Thing} (hhome : S.home thing) :
    ∀ child ∈ (childVisits S.graph true thing).filterMap Visit.thing?, S.Welcome child := by
  intro child hchild
  apply Terrain.welcome_child hhome
  exact (S.sound.child_iff (S.home_allowed thing hhome).contains).mpr
    (mem_filterMap_thing?.mp hchild)

theorem done_childVisits {thing : Thing} (hhome : S.home thing)
    (hreached : S.Reached ((childVisits S.graph true thing).filterMap Visit.thing?) o) :
    o.Done S.toTerrain thing :=
  hreached.done fun _ hchild => mem_filterMap_thing?.mpr
    ((S.sound.child_iff (S.home_allowed thing hhome).contains).mp hchild)

/-- A thing is scanned by following what a marker is shown of it. -/
private theorem Tracks.yields_scanVisits {thing : Thing}
    (h : S.Tracks (.fresh thing :: hand) [] o s) (hhome : S.home thing)
    (hpush : ∀ child, .report child ∈ childVisits S.graph true thing →
      S.Covers (push child) [child]) :
    Yields (do noteScan thing; follow S.graph push (childVisits S.graph true thing)) s
      (fun _ => S.Lands o hand [] fun o' => o'.load S.graph < o.load S.graph) S.Overflows := by
  rw [yields_bind]
  apply h.yields_noteScan.imp
  intro _ s₁ hend
  obtain ⟨-, o₁, hrun₁, h₁, -⟩ := hend
  refine ((covers_childVisits (S.home_allowed thing hhome).contains hpush).yields h₁
    (welcome_childVisits hhome)).imp ?_
  intro _ s₂ hend
  obtain ⟨o₂, hrun₂, h₂, hreached⟩ := hend
  refine ((h₂.close (done_childVisits hhome hreached)).imp fun o₃ _ hload => ?_).head
    (hrun₁.trans hrun₂)
  exact hload.trans_le (Outline.load_run (hrun₁.trans hrun₂))

/-! Things of any kind. -/

theorem covers_pushPlain {thing : Thing} (hkind : thing.kind ≠ .script) :
    S.Covers (pushPlain S.graph thing) [thing] := by
  obtain ⟨kind, index⟩ := thing
  cases kind with
  | object => exact covers_pushObject ⟨index⟩
  | string => exact covers_pushString ⟨index⟩
  | script => exact absurd rfl hkind
  | shape => exact covers_pushShape ⟨index⟩
  | baseShape => exact covers_pushBaseShape ⟨index⟩
  | typeObject => exact covers_pushTypeObject ⟨index⟩
  | xml => exact covers_pushXml ⟨index⟩

theorem covers_pushScript (id : ScriptId) : S.Covers (pushScript S.graph id) [id.thing] := by
  refine .of_color fun _ => .of_claim fun htracks hhome _ => ?_
  refine (htracks.yields_scanVisits hhome fun child hmem => ?_).imp fun _ _ hlands =>
    hlands.imp fun _ _ _ => trivial
  exact covers_pushPlain (Graph.kind_of_report_script hmem)

theorem covers_pushThing (thing : Thing) : S.Covers (pushThing S.graph thing) [thing] := by
  unfold pushThing
  split
  · rename_i hkind
    obtain ⟨kind, index⟩ := thing
    cases hkind
    exact covers_pushScript ⟨index⟩
  · rename_i hkind
    exact covers_pushPlain hkind

theorem Tracks.yields_scanXml {id : XmlId} (h : S.Tracks (.fresh id.thing :: hand) [] o s)
    (hhome : S.home id.thing) :
    Yields (scanXml S.graph id) s
      (fun _ => S.Lands o hand [] fun o' => o'.load S.graph < o.load S.graph) S.Overflows :=
  h.yields_scanVisits hhome fun child _ => covers_pushThing child

/-! Type objects, which are scanned in an order of their own. -/

/-- The things that a type object refers to besides those that name its properties. -/
private def typeFields (type : TypeCell) : List Thing :=
  refThings type.proto ++
    ((type.newScript.toList.flatMap fun newScript =>
        [newScript.function.thing, newScript.shape.thing]) ++
      (refThings type.function ++ if type.isLazy then [] else refThings type.singleton))

private theorem covers_typeFields (type : TypeCell) :
    S.Covers (do
      pushOptional (pushObject S.graph) type.proto
      if let some newScript := type.newScript then
        pushObject S.graph newScript.function
        pushShape S.graph newScript.shape
      pushOptional (pushObject S.graph) type.function
      if !type.isLazy then
        pushOptional (pushObject S.graph) type.singleton) (typeFields type) := by
  have hlast : S.Covers (do
      pushOptional (pushObject S.graph) type.function
      if !type.isLazy then
        pushOptional (pushObject S.graph) type.singleton)
      (refThings type.function ++ if type.isLazy then [] else refThings type.singleton) := by
    apply (Covers.optional covers_pushObject _).bind
    cases type.isLazy with
    | true => exact .pure
    | false => exact .optional covers_pushObject _
  apply (Covers.optional covers_pushObject _).bind
  cases type.newScript with
  | none => exact hlast
  | some newScript =>
    exact (covers_pushObject newScript.function).bind
      ((covers_pushShape newScript.shape).bind hlast)

theorem Tracks.yields_scanTypeObject {id : TypeObjectId}
    (h : S.Tracks (.fresh id.thing :: hand) [] o s) (hhome : S.home id.thing) :
    Yields (scanTypeObject S.graph id) s
      (fun _ => S.Lands o hand [] fun o' => o'.load S.graph < o.load S.graph) S.Overflows := by
  obtain ⟨type, hid⟩ := Graph.exists_typeObject (S.home_allowed id.thing hhome).contains
  have hchildren : ∀ child, S.graph.Child id.thing child ↔
      child ∈ ((shownProperties true type).flatMap fun property => property.thing?.toList) ++
        typeFields type := by
    intro child
    rw [S.sound.child_typeObject hid, Graph.report_mem_typeFieldVisits, typeFields]
    simp only [Graph.propertyVisits, List.mem_flatMap, report_mem_edgeVisits, List.mem_append,
      Option.mem_toList]
    cases type.isLazy <;>
      simp only [Bool.true_eq_false, false_and, true_and, if_true, if_false, Bool.false_eq_true,
        List.not_mem_nil, false_or, or_assoc, or_comm]
  unfold scanTypeObject
  rw [yields_bind]
  apply h.yields_noteScan.imp
  intro _ s₁ hend
  obtain ⟨-, o₁, hrun₁, h₁, -⟩ := hend
  rw [yields_bind, hid, yields_need_some]
  have hproperties : S.Covers ((shownProperties true type).forM (pushProperty S.graph))
      ((shownProperties true type).flatMap fun property => property.thing?.toList) :=
    .forM fun property _ => covers_pushProperty property
  have hcovers := hproperties.bind (covers_typeFields type)
  refine (hcovers.yields h₁ fun thing hthing => ?_).imp ?_
  · exact Terrain.welcome_child hhome ((hchildren thing).mpr hthing)
  · intro _ s₂ hend
    obtain ⟨o₂, hrun₂, h₂, hreached⟩ := hend
    have hdone := hreached.done fun child => (hchildren child).mp
    refine ((h₂.close hdone).imp fun o₃ _ hload => ?_).head (hrun₁.trans hrun₂)
    exact hload.trans_le (Outline.load_run (hrun₁.trans hrun₂))

end Setting

end MarkPhase
