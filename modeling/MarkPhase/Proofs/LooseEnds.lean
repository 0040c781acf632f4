import MarkPhase.Proofs.Labels
import MarkPhase.Proofs.Sessions

/-!
Labels that outlive their edges. A label goes with the report of the thing that its edge leads
to, and with nothing else. So a call leaves its last label behind where the last of its edges
leads nowhere: a root that is missing, a value or a property id that is no thing. The next
thing that is reported without a label is then shown under a label that is not its own.
-/

namespace MarkPhase

/-- A label is set, and no thing is reported any more. -/
def EndsLoose (visits : List Visit) : Prop :=
  ∃ before label rest, visits = before ++ .setLabel label :: rest ∧ ∀ thing, .report thing ∉ rest

namespace EndsLoose

variable {visits others : List Visit} {label : Label} {thing : Thing}

theorem not_nil : ¬ EndsLoose [] := by
  rintro ⟨before, label, rest, heq, -⟩
  simp at heq

theorem append_setLabel (visits : List Visit) (label : Label) :
    EndsLoose (visits ++ [.setLabel label]) :=
  ⟨visits, label, [], rfl, fun _ => List.not_mem_nil⟩

theorem not_append_report (visits : List Visit) (thing : Thing) :
    ¬ EndsLoose (visits ++ [.report thing]) := by
  rintro ⟨before, label, rest, heq, hrest⟩
  rcases List.eq_nil_or_concat' rest with rfl | ⟨front, last, rfl⟩
  · have hlast := congrArg List.getLast? heq
    simp at hlast
  · have hlast := congrArg List.getLast? heq
    rw [← List.cons_append, ← List.append_assoc, List.getLast?_concat, List.getLast?_concat]
      at hlast
    exact hrest thing (by simp [Option.some.inj hlast])

/-- A visit that sets no label and reports nothing makes no difference. -/
theorem append_iff_of_silent (visit : Visit) (hlabel : ∀ label, visit ≠ .setLabel label)
    (hreport : ∀ thing, visit ≠ .report thing) :
    EndsLoose (visits ++ [visit]) ↔ EndsLoose visits := by
  constructor
  · rintro ⟨before, label, rest, heq, hrest⟩
    rcases List.eq_nil_or_concat' rest with rfl | ⟨front, last, rfl⟩
    · have hlast := congrArg List.getLast? heq
      rw [List.getLast?_concat, List.getLast?_concat] at hlast
      exact absurd (Option.some.inj hlast) (hlabel label)
    · rw [← List.cons_append, ← List.append_assoc] at heq
      have hfront := congrArg List.dropLast heq
      rw [List.dropLast_concat, List.dropLast_concat] at hfront
      exact ⟨before, label, front, hfront, fun thing hmem => hrest thing (by simp [hmem])⟩
  · rintro ⟨before, label, rest, rfl, hrest⟩
    refine ⟨before, label, rest ++ [visit], by simp, fun thing hmem => ?_⟩
    rcases List.mem_append.mp hmem with hrestMem | hvisit
    · exact hrest thing hrestMem
    · exact hreport thing (List.mem_singleton.mp hvisit).symm

/-- An edge is a loose end if it leads nowhere. -/
@[simp]
theorem append_edgeVisits_iff (visits : List Visit) (label : Label) (thing : Option Thing) :
    EndsLoose (visits ++ edgeVisits label thing) ↔ thing = none := by
  cases thing with
  | none => exact iff_of_true (append_setLabel visits label) rfl
  | some thing =>
    refine iff_of_false ?_ (by simp)
    have hnot := not_append_report (visits ++ [.setLabel label]) thing
    rwa [List.append_assoc] at hnot

@[simp]
theorem edgeVisits_iff (label : Label) (thing : Option Thing) :
    EndsLoose (edgeVisits label thing) ↔ thing = none :=
  append_edgeVisits_iff [] label thing

/-- No present entry of a table leads nowhere. -/
theorem not_tableVisits (name : String) (things : List (Option Thing)) :
    ¬ EndsLoose (tableVisits name things) := by
  induction things using List.reverseRecOn with
  | nil => exact not_nil
  | append_singleton things thing ih =>
    rw [tableVisits, List.zipIdx_append, List.flatMap_append]
    cases thing with
    | none => simpa [tableVisits] using ih
    | some thing => simp

/-- A table of which every position is labelled ends loose where its last position does. -/
theorem fullTableVisits_iff (name : String) (things : List (Option Thing)) :
    EndsLoose (fullTableVisits name things) ↔ things.getLast? = some none := by
  rcases List.eq_nil_or_concat' things with rfl | ⟨front, last, rfl⟩
  · exact iff_of_false not_nil (by simp)
  · rw [fullTableVisits, List.zipIdx_append, List.flatMap_append]
    simp

end EndsLoose

/-- Without a label at hand before, one is at hand after the visits if they end loose. -/
theorem foldl_after_ne_blank_iff {visits : List Visit} (h : .setLabel .blank ∉ visits) :
    visits.foldl Label.after .blank ≠ .blank ↔ EndsLoose visits := by
  induction visits using List.reverseRecOn with
  | nil => exact iff_of_false (fun hne => hne rfl) EndsLoose.not_nil
  | append_singleton visits visit ih =>
    rw [List.mem_append, not_or] at h
    rw [List.foldl_append]
    cases visit with
    | setLabel label =>
      refine iff_of_true (fun hblank => h.2 ?_) (EndsLoose.append_setLabel visits label)
      rw [← hblank]
      exact List.mem_singleton_self _
    | report thing =>
      exact iff_of_false (fun hne => hne rfl) (EndsLoose.not_append_report visits thing)
    | keepFilename name =>
      rw [EndsLoose.append_iff_of_silent (.keepFilename name) nofun nofun]
      exact ih h.1
    | broken fault =>
      rw [EndsLoose.append_iff_of_silent (.broken fault) nofun nofun]
      exact ih h.1

namespace MarkingCall

/-- The last edge of the call leads nowhere. -/
def LeavesLabel (g : Graph) (isMarker : Bool) : MarkingCall → Prop
  | .root _ one => one = none
  | .property _ id => id.thing? = none
  | .properties _ ids => ids.getLast?.map PropertyId.thing? = some none
  | .value _ held => held.thing? = none
  | .values _ held => held.getLast?.map Value.thing? = some none
  | .children one => EndsLoose (childVisits g isMarker one)
  | .lineage shape => EndsLoose (lineageVisits g shape)
  | _ => False

variable {g : Graph} {isMarker : Bool}

theorem endsLoose_iff (call : MarkingCall) (context : Context) :
    EndsLoose (call.visits g isMarker context) ↔ call.LeavesLabel g isMarker := by
  cases call with
  | thing name one => simp [visits, LeavesLabel]
  | table name things => exact iff_of_false (EndsLoose.not_tableVisits name things) id
  | unnamed one => exact iff_of_false (EndsLoose.not_append_report [] one) id
  | root name one => exact EndsLoose.edgeVisits_iff _ one
  | property name id => exact EndsLoose.edgeVisits_iff _ _
  | properties name ids =>
    rw [visits, EndsLoose.fullTableVisits_iff, List.getLast?_map]
    rfl
  | value name held => exact EndsLoose.edgeVisits_iff _ _
  | values name held =>
    rw [visits, valueTableVisits, EndsLoose.fullTableVisits_iff, List.getLast?_map]
    rfl
  | wrapped name held =>
    refine iff_of_false ?_ id
    cases hthing : held.thing? with
    | none => simpa only [visits, hthing] using EndsLoose.not_nil
    | some one =>
      simp only [visits, hthing, wrappedVisits]
      have hsilent : EndsLoose ([] ++ [.broken .outOfBounds]) ↔ EndsLoose [] :=
        EndsLoose.append_iff_of_silent (.broken .outOfBounds) (by simp) (by simp)
      have hbroken : ¬ EndsLoose [.broken .outOfBounds] := EndsLoose.not_nil ∘ hsilent.mp
      split
      · simp
      · split
        · exact hbroken
        · split
          · simp
          · exact EndsLoose.not_nil
  | children one => exact Iff.rfl
  | lineage shape => exact Iff.rfl

theorem setLabel_blank_notMem (call : MarkingCall) (context : Context) :
    .setLabel .blank ∉ call.visits g isMarker context := by
  by_cases hunnamed : ∃ one, call = .unnamed one
  · obtain ⟨one, rfl⟩ := hunnamed
    simp [visits]
  · have hcall : Enumeration (fun _ => True) (call.visits g isMarker context) :=
      Enumeration.visits (fun one hone => hunnamed ⟨one, hone⟩)
        (fun _ _ _ _ _ _ _ _ => trivial) context
    exact hcall.setLabel_blank_notMem

end MarkingCall

/-! Calls made one after the other. -/

/-- Someone to whom marking calls are made, and the context that they carry. -/
structure Listener (σ : Type) where
  isMarker : Bool
  context : σ → Context
  make : MarkingCall → EStateM Fault σ Unit

namespace Listener

/-- A tracer that receives every edge. -/
def receiving (g : Graph) : Listener Tracer :=
  ⟨false, Tracer.context, TraceM.make g⟩

/-- A tracer that explores what it is shown. -/
def exploring (g : Graph) : Listener Tracer :=
  ⟨false, Tracer.context, TraceM.makeExploring g⟩

def marking (ω : Type) (g : Graph) : Listener (Marking ω) :=
  ⟨true, fun s => s.context, MarkM.make g⟩

variable {σ : Type} {g : Graph} {l : Listener σ}

/-- The states after each of the calls, up to the first one that fails. -/
def statesAfter (l : Listener σ) (s : σ) : List MarkingCall → List σ
  | [] => []
  | call :: calls =>
    match l.make call s with
    | .ok _ t => t :: l.statesAfter t calls
    | .error _ _ => []

/-- The calls before the first one that fails. -/
def answered (l : Listener σ) (s : σ) (calls : List MarkingCall) : List MarkingCall :=
  calls.take (l.statesAfter s calls).length

/-- A call leaves the label that its visits leave, and the compartment is as before. -/
def Settles (g : Graph) (l : Listener σ) : Prop :=
  ∀ call s, Yields (l.make call) s
    (fun _ t => l.context t = (l.context s).labelled
      ((call.visits g l.isMarker (l.context s)).foldl Label.after (l.context s).label))
    fun _ _ => True

theorem settles_receiving : (receiving g).Settles g := by
  intro call s
  refine (TraceM.yields_forM_visit (call.visits g false s.context) s).mono ?_ fun _ _ _ => trivial
  rintro _ t rfl
  rfl

theorem settles_exploring : (exploring g).Settles g := by
  intro call s
  refine (TraceM.yields_explore g.thingCount _ s).imp fun _ t ht => ?_
  rw [TraceM.foldl_labelAfter_map] at ht
  exact ht

theorem settles_marking (ω : Type) : (marking ω g).Settles g := by
  intro call s
  have hfilter := (MarkM.lasting_develops g).make call s
  have hlabel := MarkM.yields_follow_label (g := g) (MarkM.pushThing g)
    (call.visits g true s.context) s
  refine (hfilter.and hlabel).mono ?_ fun _ _ _ => trivial
  intro _ t hend
  obtain ⟨hdevelops, ht⟩ := hend
  exact Context.eq_labelled hdevelops.filter ht

/-- From a blank label on, the label is blank after every call if none of the calls that
return leaves its last label behind. -/
theorem Settles.blank_iff (h : l.Settles g) {s : σ} (hblank : (l.context s).label = .blank)
    (calls : List MarkingCall) :
    (∀ t ∈ l.statesAfter s calls, (l.context t).label = .blank) ↔
      ∀ call ∈ l.answered s calls, ¬ call.LeavesLabel g l.isMarker := by
  induction calls generalizing s with
  | nil => simp [statesAfter, answered]
  | cons call calls ih =>
    cases hmake : l.make call s with
    | error fault t => simp [answered, statesAfter, hmake]
    | ok _ t =>
      have ht := (h call s).of_ok hmake
      have hleft : (l.context t).label = .blank ↔ ¬ call.LeavesLabel g l.isMarker := by
        rw [ht, Context.labelled_label, hblank, ← call.endsLoose_iff (l.context s),
          ← foldl_after_ne_blank_iff (call.setLabel_blank_notMem (l.context s)), not_not]
      simp only [answered, statesAfter, hmake, List.length_cons, List.take_succ_cons,
        List.forall_mem_cons, hleft]
      exact and_congr_right fun hcall => ih (hleft.mpr hcall)

/-- A tracer without a label, of whatever sort, has none after every call if none of the calls
that return leaves its last label behind, and only then. -/
theorem labels_cleared_iff (g : Graph) (calls : List MarkingCall) :
    (∀ s : Tracer, s.context.label = .blank →
      ((∀ t ∈ (receiving g).statesAfter s calls, t.context.label = .blank) ↔
        ∀ call ∈ (receiving g).answered s calls, ¬ call.LeavesLabel g false)) ∧
    (∀ s : Tracer, s.context.label = .blank →
      ((∀ t ∈ (exploring g).statesAfter s calls, t.context.label = .blank) ↔
        ∀ call ∈ (exploring g).answered s calls, ¬ call.LeavesLabel g false)) ∧
    ∀ (ω : Type) (s : Marking ω), s.context.label = .blank →
      ((∀ t ∈ (marking ω g).statesAfter s calls, t.context.label = .blank) ↔
        ∀ call ∈ (marking ω g).answered s calls, ¬ call.LeavesLabel g true) :=
  ⟨fun _ hblank => settles_receiving.blank_iff hblank calls,
    fun _ hblank => settles_exploring.blank_iff hblank calls,
    fun ω _ hblank => (settles_marking ω).blank_iff hblank calls⟩

/-- Three objects, reported under a name, as a table with a hole and as the last one of some
values. -/
theorem labels_cleared_iff_sample :
    let L : Launch Unit := .sample 1 none
    let calls : List MarkingCall := [.thing "first" ⟨.object, 0⟩,
      .table "roots" [some ⟨.object, 1⟩, none], .values "values" [.null, .object ⟨2⟩]]
    (((receiving L.graph).statesAfter {} calls).length = 3 ∧
      ∀ t ∈ (receiving L.graph).statesAfter {} calls, t.context.label = .blank) ∧
    (∀ t ∈ (exploring L.graph).statesAfter {} calls, t.context.label = .blank) ∧
    ((marking Unit L.graph).statesAfter L.start calls).length = 3 ∧
      ∀ t ∈ (marking Unit L.graph).statesAfter L.start calls, t.context.label = .blank := by
  intro L calls
  have hcalls : ∀ isMarker, ∀ call ∈ calls, ¬ call.LeavesLabel L.graph isMarker := by
    intro isMarker call hcall
    simp only [calls, List.mem_cons, List.not_mem_nil, or_false] at hcall
    rcases hcall with rfl | rfl | rfl <;> simp [MarkingCall.LeavesLabel, Value.thing?]
  obtain ⟨hreceiving, hexploring, hmarking⟩ := labels_cleared_iff L.graph calls
  exact ⟨⟨by decide +kernel, (hreceiving {} rfl).mpr fun call hmem =>
      hcalls false call (List.mem_of_mem_take hmem)⟩,
    (hexploring {} rfl).mpr fun call hmem => hcalls false call (List.mem_of_mem_take hmem),
    by decide +kernel, (hmarking Unit L.start rfl).mpr fun call hmem =>
      hcalls true call (List.mem_of_mem_take hmem)⟩

/-- A root that is missing leaves its name behind, and the string that is reported next,
without a name, is received under it. -/
theorem label_outlives_edge :
    let history : List Construction := [.compartment "c", .string ⟨1⟩ "a"]
    let g := (Heap.built history).graph
    let calls : List MarkingCall := [.root "root" none, .unnamed ⟨.string, 0⟩]
    Grounded history ∧ (∃ t ∈ (receiving g).statesAfter {} calls, t.context.label ≠ .blank) ∧
      ∃ t, calls.forM (TraceM.make g) {} = .ok () t ∧
        t.edges = #[⟨⟨.string, 0⟩, .named "root"⟩] := by
  intro history g calls
  have hrun : ∃ _ t, calls.forM (TraceM.make g) {} = .ok () t ∧
      t.edges = #[⟨⟨.string, 0⟩, .named "root"⟩] := Yields.exists_post (by decide +kernel)
  obtain ⟨_, t, ht, hedges⟩ := hrun
  exact ⟨by decide +kernel, by decide +kernel, t, ht, hedges⟩

end Listener

end MarkPhase
