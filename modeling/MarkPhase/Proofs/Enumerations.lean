import MarkPhase.Calls

/-!
What enumerations are put together from: edges under labels of their own, and filenames to
keep. Of all the lists of visits only those of a script hold the visit that keeps a name,
once and at a fixed place, and only where the tracer is the marker. Whatever a generic tracer
is shown keeps none.
-/

namespace MarkPhase

/-- No filename is kept on the way. -/
def Quiet (visits : List Visit) : Prop :=
  ∀ name, .keepFilename name ∉ visits

/-- Of all filenames only the given ones are kept on the way. -/
def KeepsOnly (names : String → Prop) (visits : List Visit) : Prop :=
  ∀ name, .keepFilename name ∈ visits → names name

/-- Visits put together as enumerations are: edges, each under a label of its own, filenames
to keep among the given ones, and places where the enumeration could not go on. -/
inductive Enumeration (names : String → Prop) : List Visit → Prop
  | nil : Enumeration names []
  | edge {label : Label} (thing : Option Thing) :
      label ≠ .blank → Enumeration names (edgeVisits label thing)
  | filename {name : String} : names name → Enumeration names [.keepFilename name]
  | broken (fault : Fault) : Enumeration names [.broken fault]
  | append {visits others : List Visit} :
      Enumeration names visits → Enumeration names others → Enumeration names (visits ++ others)

/-- What is shown of a script before its name. -/
def visitsBeforeName (script : ScriptCell) : List Visit :=
  script.atoms.flatMap (fieldVisits "atom") ++
    tableVisits "objects" ((script.objects.getD []).map (·.map Ref.thing)) ++
    tableVisits "regexps" ((script.regexps.getD []).map (·.map Ref.thing)) ++
    valueTableVisits "consts" (script.consts.getD []) ++
    fieldVisits "function" script.function ++
    if script.isCachedEval then [] else fieldVisits "global" script.global

/-- What is shown of a script after its name. -/
def visitsAfterName (script : ScriptCell) : List Visit :=
  fieldVisits "bindings" script.bindings ++
    if script.isDebugged then
      script.closures.flatMap fun value => edgeVisits (.named "trap closure") value.thing?
    else
      []

variable {g : Graph}

theorem scriptVisits_eq {id : ScriptId} {script : ScriptCell} (hid : g.script? id = some script)
    (isMarker : Bool) : scriptVisits g isMarker id = visitsBeforeName script ++
      ((if isMarker then (script.filename.map .keepFilename).toList else []) ++
        visitsAfterName script) := by
  simp only [scriptVisits, hid, visitsBeforeName, visitsAfterName, List.append_assoc]

namespace Enumeration

variable {names : String → Prop}

theorem keepsOnly {shown : List Visit} (h : Enumeration names shown) : KeepsOnly names shown := by
  intro name hmem
  induction h with
  | nil => cases hmem
  | edge thing _ => cases thing <;> simp [MarkPhase.edgeVisits] at hmem
  | filename hname =>
    cases List.mem_singleton.mp hmem
    exact hname
  | broken fault => cases List.mem_singleton.mp hmem
  | append _ _ ih ihothers => exact (List.mem_append.mp hmem).elim ih ihothers

theorem quiet {shown : List Visit} (h : Enumeration (fun _ => False) shown) : Quiet shown :=
  h.keepsOnly

/-- No label is set to nothing. -/
theorem setLabel_blank_notMem {shown : List Visit} (h : Enumeration names shown) :
    .setLabel .blank ∉ shown := by
  induction h with
  | nil => exact List.not_mem_nil
  | edge thing hlabel => cases thing <;> simp [MarkPhase.edgeVisits, hlabel.symm]
  | filename _ => simp
  | broken fault => simp
  | append _ _ ih ihothers => exact fun hmem => (List.mem_append.mp hmem).elim ih ihothers

theorem flatMap {α : Type} {xs : List α} {f : α → List Visit}
    (h : ∀ x ∈ xs, Enumeration names (f x)) : Enumeration names (xs.flatMap f) := by
  induction xs with
  | nil => exact nil
  | cons x xs ih =>
    rw [List.flatMap_cons]
    exact (h x (List.mem_cons_self ..)).append (ih fun y hy => h y (List.mem_cons_of_mem _ hy))

theorem named (name : String) (thing : Option Thing) :
    Enumeration names (edgeVisits (.named name) thing) :=
  edge thing nofun

theorem fieldVisits {kind : Kind} (name : String) (ref : Option (Ref kind)) :
    Enumeration names (fieldVisits name ref) := by
  cases ref with
  | none => exact nil
  | some ref => exact named _ _

theorem tableVisits (name : String) (things : List (Option Thing)) :
    Enumeration names (tableVisits name things) := by
  refine flatMap fun entry _ => ?_
  obtain ⟨thing, index⟩ := entry
  cases thing with
  | none => exact nil
  | some thing => exact edge _ nofun

theorem fullTableVisits (name : String) (things : List (Option Thing)) :
    Enumeration names (fullTableVisits name things) :=
  flatMap fun _ _ => edge _ nofun

theorem valueTableVisits (name : String) (values : List Value) :
    Enumeration names (valueTableVisits name values) :=
  fullTableVisits _ _

theorem visitsBeforeName (script : ScriptCell) : Enumeration names (visitsBeforeName script) := by
  refine (((((flatMap fun atom _ => fieldVisits _ atom).append (tableVisits _ _)).append
    (tableVisits _ _)).append (valueTableVisits _ _)).append (fieldVisits _ _)).append ?_
  split
  · exact nil
  · exact fieldVisits _ _

theorem visitsAfterName (script : ScriptCell) : Enumeration names (visitsAfterName script) := by
  refine (fieldVisits _ _).append ?_
  split
  · exact flatMap fun _ _ => named _ _
  · exact nil

/-- The marker is asked to keep the name of a script, and of no other one. -/
theorem scriptVisits {isMarker : Bool} {id : ScriptId}
    (h : isMarker = true → ∀ script, g.script? id = some script → ∀ name,
      script.filename = some name → names name) :
    Enumeration names (scriptVisits g isMarker id) := by
  cases hid : g.script? id with
  | none => simpa only [MarkPhase.scriptVisits, hid] using broken _
  | some script =>
    rw [scriptVisits_eq hid]
    refine (visitsBeforeName script).append (append ?_ (visitsAfterName script))
    split
    · rename_i hmarker
      cases hname : script.filename with
      | none => exact nil
      | some name => exact filename (h hmarker script hid name hname)
    · exact nil

theorem hookVisits (object : ObjectCell) (hook : Option Hook) :
    Enumeration names (hookVisits object hook) := by
  unfold MarkPhase.hookVisits
  split
  · exact valueTableVisits _ _
  · split
    · exact named _ _
    · exact nil
  · exact nil

theorem objectVisits (id : ObjectId) : Enumeration names (objectVisits g id) := by
  unfold MarkPhase.objectVisits
  split
  · exact broken _
  · refine ((named _ _).append (named _ _)).append ?_
    split
    · exact broken _
    · refine (hookVisits _ _).append ?_
      split
      · exact flatMap fun _ _ => edge _ nofun
      · exact nil

theorem stringVisits (id : StringId) : Enumeration names (stringVisits g id) := by
  unfold MarkPhase.stringVisits
  split
  · exact broken _
  · split
    · exact nil
    · exact named _ _
    · exact (named _ _).append (named _ _)

theorem shapeVisits (id : ShapeId) : Enumeration names (shapeVisits g id) := by
  unfold MarkPhase.shapeVisits
  split
  · exact broken _
  · exact ((named _ _).append (named _ _)).append (fieldVisits _ _)

theorem accessorVisits (base : BaseShapeCell) : Enumeration names (accessorVisits base) :=
  (fieldVisits _ _).append (fieldVisits _ _)

theorem baseShapeVisits (id : BaseShapeId) : Enumeration names (baseShapeVisits g id) := by
  unfold MarkPhase.baseShapeVisits
  split
  · exact broken _
  · exact ((accessorVisits _).append (fieldVisits _ _)).append (fieldVisits _ _)

theorem typeObjectVisits (isMarker : Bool) (id : TypeObjectId) :
    Enumeration names (typeObjectVisits g isMarker id) := by
  unfold MarkPhase.typeObjectVisits
  split
  · exact broken _
  · refine ((((flatMap fun _ _ => named _ _).append (fieldVisits _ _)).append ?_).append
      ?_).append (fieldVisits _ _)
    · split
      · exact nil
      · exact fieldVisits _ _
    · split
      · exact (named _ _).append (named _ _)
      · exact nil

theorem xmlVisits (id : XmlId) : Enumeration names (xmlVisits g id) := by
  unfold MarkPhase.xmlVisits
  split
  · exact broken _
  · exact (((((fieldVisits _ _).append (fieldVisits _ _)).append (fieldVisits _ _)).append
      (fieldVisits _ _)).append (tableVisits _ _)).append (tableVisits _ _)

/-- Only a marker is asked to keep a name, and only of a script. -/
theorem childVisits {isMarker : Bool} {thing : Thing}
    (h : isMarker = true → ∀ script, thing.kind = .script →
      g.script? ⟨thing.index⟩ = some script → ∀ name, script.filename = some name → names name) :
    Enumeration names (childVisits g isMarker thing) := by
  obtain ⟨kind, index⟩ := thing
  cases kind with
  | object => exact objectVisits _
  | string => exact stringVisits _
  | script => exact scriptVisits fun hmarker script => h hmarker script rfl
  | shape => exact shapeVisits _
  | baseShape => exact baseShapeVisits _
  | typeObject => exact typeObjectVisits _ _
  | xml => exact xmlVisits _

theorem lineageFrom (steps : Nat) (lastParent : Option ObjectId) (next : Option ShapeId) :
    Enumeration names (lineageFrom g steps lastParent next) := by
  fun_induction MarkPhase.lineageFrom with
  | case1 => exact nil
  | case2 => exact broken _
  | case3 => exact broken _
  | case4 => exact broken _
  | case5 lastParent steps id shape hshape base hbase ih =>
    refine (((accessorVisits base).append ?_).append (named _ _)).append ih
    split
    · exact nil
    · exact fieldVisits _ _

theorem wrappedVisits (context : Context) (name : String) (thing : Thing) :
    Enumeration names (MarkingCall.wrappedVisits g context name thing) := by
  unfold MarkingCall.wrappedVisits
  split
  · exact named _ _
  · split
    · exact broken _
    · split
      · exact named _ _
      · exact nil

/-- Every call enumerates something, but for the one that reports a thing and sets no label. -/
theorem visits {isMarker : Bool} {call : MarkingCall} (hnamed : ∀ one, call ≠ .unnamed one)
    (h : isMarker = true → ∀ thing script, call = .children thing → thing.kind = .script →
      g.script? ⟨thing.index⟩ = some script → ∀ name, script.filename = some name → names name)
    (context : Context) : Enumeration names (call.visits g isMarker context) := by
  cases call with
  | thing name one => exact named _ _
  | table name things => exact tableVisits _ _
  | unnamed one => exact absurd rfl (hnamed one)
  | root name one => exact named _ _
  | property name id => exact named _ _
  | properties name ids => exact fullTableVisits _ _
  | value name held => exact named _ _
  | values name held => exact valueTableVisits _ _
  | wrapped name held =>
    cases hthing : held.thing? with
    | none => simpa only [MarkingCall.visits, hthing] using nil
    | some one => simpa only [MarkingCall.visits, hthing] using wrappedVisits context name one
  | children one => exact childVisits fun hmarker script => h hmarker one script rfl
  | lineage shape => exact lineageFrom _ _ _

end Enumeration

namespace Quiet

theorem keepsOnly {visits : List Visit} (h : Quiet visits) (names : String → Prop) :
    KeepsOnly names visits :=
  fun name hmem => absurd hmem (h name)

theorem childVisits {isMarker : Bool} {thing : Thing}
    (h : isMarker = true → thing.kind ≠ .script) : Quiet (childVisits g isMarker thing) :=
  (Enumeration.childVisits fun hmarker _ hkind => absurd hkind (h hmarker)).quiet

/-- No call makes a generic tracer keep a name, and but for the enumeration of a script none
makes the marker keep one. -/
theorem visits {isMarker : Bool} {call : MarkingCall}
    (h : isMarker = true → ∀ thing, call = .children thing → thing.kind ≠ .script)
    (context : Context) : Quiet (call.visits g isMarker context) := by
  by_cases hunnamed : ∃ one, call = .unnamed one
  · obtain ⟨one, rfl⟩ := hunnamed
    intro name hmem
    cases List.mem_singleton.mp hmem
  · refine (Enumeration.visits (fun one hone => hunnamed ⟨one, hone⟩) ?_ context).quiet
    exact fun hmarker thing _ hcall hkind => absurd hkind (h hmarker thing hcall)

end Quiet

/-- The marker keeps the name of a script whose children it enumerates, and no other one. -/
theorem keepsOnly_scriptVisits {names : String → Prop} {id : ScriptId}
    (h : ∀ script, g.script? id = some script → ∀ name, script.filename = some name →
      names name) : KeepsOnly names (scriptVisits g true id) :=
  (Enumeration.scriptVisits fun _ => h).keepsOnly

end MarkPhase
