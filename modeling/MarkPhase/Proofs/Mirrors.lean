import MarkPhase.Proofs.Colors
import MarkPhase.Proofs.Isolation
import MarkPhase.Proofs.Restarts
import MarkPhase.Proofs.Retention
import MarkPhase.Proofs.Surveys

/-!
Marked names and marked scripts. A marker that marks a script goes through its children at
once and keeps its filename on the way. The only other way to a mark on a name is to ask the
marker for the children of a script, whether this script is marked or not. So whenever the
marker has returned, the marked entries of the table can be told from the marked scripts and
from what has been asked.
-/

namespace MarkPhase

variable {ω : Type}

/-! Whose names are marked. -/

/-- The filenames of the marked scripts. -/
def Graph.markedNames (g : Graph) (marks : MarkTable) : List String :=
  (List.range g.scripts.size).filterMap fun index =>
    if marks.isMarked ⟨.script, index⟩ then (g.script? ⟨index⟩).bind (·.filename) else none

theorem Graph.mem_markedNames {g : Graph} {marks : MarkTable} {name : String} :
    name ∈ g.markedNames marks ↔ ∃ (id : ScriptId) (script : ScriptCell),
      marks.isMarked id.thing = true ∧ g.script? id = some script ∧
        script.filename = some name := by
  simp only [markedNames, List.mem_filterMap, List.mem_range]
  constructor
  · rintro ⟨index, -, hname⟩
    by_cases hmarked : marks.isMarked ⟨.script, index⟩ = true
    · rw [if_pos hmarked] at hname
      obtain ⟨script, hscript, hfilename⟩ := Option.bind_eq_some_iff.mp hname
      exact ⟨⟨index⟩, script, hmarked, hscript, hfilename⟩
    · rw [if_neg hmarked] at hname
      cases hname
  · rintro ⟨id, script, hmarked, hscript, hfilename⟩
    obtain ⟨hlt, -⟩ := Array.getElem?_eq_some_iff.mp hscript
    exact ⟨id.index, hlt, (if_pos hmarked).trans
      (Option.bind_eq_some_iff.mpr ⟨script, hscript, hfilename⟩)⟩

namespace Command

/-- The name that the marker keeps because it is asked for the children of a script. -/
def askedName? (g : Graph) : Command → Option String
  | .step (.call (.children ⟨.script, index⟩)) => (g.script? ⟨index⟩).bind (·.filename)
  | _ => none

variable {g : Graph} {command : Command} {name : String}

theorem askedName?_eq_some : command.askedName? g = some name ↔
    ∃ (id : ScriptId) (script : ScriptCell), command = .step (.call (.children id.thing)) ∧
      g.script? id = some script ∧ script.filename = some name := by
  constructor
  · intro hasked
    unfold askedName? at hasked
    split at hasked
    · rename_i index
      obtain ⟨script, hscript, hfilename⟩ := Option.bind_eq_some_iff.mp hasked
      exact ⟨⟨index⟩, script, rfl, hscript, hfilename⟩
    · cases hasked
  · rintro ⟨id, script, rfl, hscript, hfilename⟩
    exact Option.bind_eq_some_iff.mpr ⟨script, hscript, hfilename⟩

/-- A call keeps no name but the one that it asks for. -/
theorem keepsOnly_visits {names : String → Prop}
    (hnames : ∀ name, command.askedName? g = some name → names name) {request : MarkingCall}
    (hrequest : command = .step (.call request)) (filter : Option CompartmentId) :
    KeepsOnly names (request.visits g true { compartment := filter }) := by
  by_cases hchildren : ∃ id : ScriptId, request = .children id.thing
  · obtain ⟨id, rfl⟩ := hchildren
    exact keepsOnly_scriptVisits fun script hscript name hfilename => hnames name <|
      askedName?_eq_some.mpr ⟨id, script, hrequest, hscript, hfilename⟩
  · refine (Quiet.visits (fun _ thing heq hkind => hchildren ?_) _).keepsOnly names
    obtain ⟨kind, index⟩ := thing
    obtain rfl : kind = .script := hkind
    exact ⟨⟨index⟩, heq⟩

end Command

namespace FilenameTable

variable {table : FilenameTable}

/-- Entries of one name are all marked or all unmarked. -/
def Uniform (table : FilenameTable) : Prop :=
  ∀ entry ∈ table.entries, entry.2 = table.isMarked entry.1

theorem isMarked_clearMarks (table : FilenameTable) (name : String) :
    table.clearMarks.isMarked name = false := by
  simp [clearMarks, isMarked]

theorem uniform_clearMarks (table : FilenameTable) : table.clearMarks.Uniform := by
  intro entry hentry
  obtain ⟨old, -, rfl⟩ := List.mem_map.mp hentry
  exact (table.isMarked_clearMarks old.1).symm

theorem contains_of_mem {entry : String × Bool} (h : entry ∈ table.entries) :
    table.contains entry.1 = true :=
  List.any_eq_true.mpr ⟨entry, h, beq_self_eq_true _⟩

theorem Uniform.mark (h : table.Uniform) (name : String) : (table.mark name).Uniform := by
  intro entry hentry
  obtain ⟨old, hold, rfl⟩ := List.mem_map.mp hentry
  by_cases heq : old.1 = name
  · rw [if_pos (beq_iff_eq.mpr heq)]
    exact (isMarked_mark.mpr (Or.inr ⟨rfl, heq ▸ contains_of_mem hold⟩)).symm
  · rw [if_neg (heq ∘ beq_iff_eq.mp), h old hold, Bool.eq_iff_iff, isMarked_mark]
    exact ⟨Or.inl, fun hmarked => hmarked.resolve_right fun hname => heq hname.1.symm⟩

/-- A sweep keeps the names that are marked and counts the others. -/
theorem sweep_eq {names : List String}
    (hnames : ∀ entry ∈ table.entries, entry.2 = true ↔ entry.1 ∈ names) :
    table.sweep.2.names = table.names.filter (· ∈ names) ∧
      table.sweep.1 = (table.names.filter (· ∉ names)).length := by
  have hkept : table.entries.filter (·.2) =
      table.entries.filter fun entry => decide (entry.1 ∈ names) :=
    List.filter_congr fun entry hentry => by rw [Bool.eq_iff_iff, hnames entry hentry]; simp
  have hdropped : table.entries.length = (table.entries.filter (·.2)).length +
      (table.entries.filter fun entry => decide (entry.1 ∉ names)).length := by
    rw [hkept, ← List.countP_eq_length_filter, ← List.countP_eq_length_filter,
      List.length_eq_countP_add_countP fun entry => decide (entry.1 ∈ names)]
    simp
  constructor
  · change (table.entries.filter (·.2)).map Prod.fst = (table.entries.map Prod.fst).filter _
    rw [List.filter_map, hkept]
    rfl
  · change table.entries.length - (table.entries.filter (·.2)).length = _
    unfold FilenameTable.names
    rw [List.filter_map, List.length_map, hdropped, Nat.add_sub_cancel_left]
    rfl

end FilenameTable

/-! What a marker does to the names. -/

/-- No script waits on the delayed list. -/
def Marking.Scriptless (s : Marking ω) : Prop :=
  ∀ thing ∈ s.delayed.things, thing.kind ≠ .script

/-- Between the two states things have been marked only, and unless a script was delayed, a
name that has come to be marked is one of `names` or that of a marked script. -/
structure Marking.Attributes (g : Graph) (names : String → Prop) (s t : Marking ω) : Prop where
  marked : ∀ thing, s.marks.isMarked thing = true → t.marks.isMarked thing = true
  scriptless : s.Scriptless → t.Scriptless
  uniform : s.Scriptless → s.filenames.Uniform → t.filenames.Uniform
  named : s.Scriptless → ∀ name, t.filenames.isMarked name = true →
    s.filenames.isMarked name = true ∨ names name ∨ name ∈ g.markedNames t.marks

namespace Marking.Attributes

variable {g : Graph} {names : String → Prop} {s t : Marking ω}

instance : IsPreorder (Marking ω) (Attributes g names) where
  refl _ := ⟨fun _ => id, id, fun _ => id, fun _ _ => Or.inl⟩
  trans s t u h h' := by
    refine ⟨fun thing => h'.marked thing ∘ h.marked thing, h'.scriptless ∘ h.scriptless,
      fun hscriptless => h'.uniform (h.scriptless hscriptless) ∘ h.uniform hscriptless,
      fun hscriptless name hname => ?_⟩
    rcases h'.named (h.scriptless hscriptless) name hname with hbetween | hlater
    · rcases h.named hscriptless name hbetween with hbefore | hgiven | hscript
      · exact Or.inl hbefore
      · exact Or.inr (Or.inl hgiven)
      · obtain ⟨id, script, hmarked, hid⟩ := Graph.mem_markedNames.mp hscript
        exact Or.inr (Or.inr (Graph.mem_markedNames.mpr ⟨id, script, h'.marked _ hmarked, hid⟩))
    · exact Or.inr hlater

/-- Nothing has happened to the names, and no script has been delayed. -/
theorem of_marked (hmarked : ∀ thing, s.marks.isMarked thing = true → t.marks.isMarked thing = true)
    (hnames : t.filenames = s.filenames)
    (hdelayed : ∀ thing ∈ t.delayed.things, thing ∈ s.delayed.things ∨ thing.kind ≠ .script) :
    s.Attributes g names t where
  marked := hmarked
  uniform _ h := hnames ▸ h
  scriptless h thing hthing := (hdelayed thing hthing).elim (h thing) id
  named _ _ hname := Or.inl (hnames ▸ hname)

theorem of_eq (hmarks : t.marks = s.marks) (hnames : t.filenames = s.filenames)
    (hdelayed : t.delayed = s.delayed) : s.Attributes g names t :=
  of_marked (fun _ h => hmarks ▸ h) hnames fun _ h => Or.inl (hdelayed ▸ h)

theorem set (thing : Thing) (color : Color) :
    s.Attributes g names { s with marks := s.marks.set thing (.marked color) } :=
  of_marked (fun _ h => (ThingTable.isMarked_set ..).mpr (Or.inr h)) rfl fun _ => Or.inl

/-- A name is kept that may be kept. -/
theorem mark {name : String} (hname : names name ∨ name ∈ g.markedNames s.marks) :
    s.Attributes g names { s with filenames := s.filenames.mark name } where
  marked _ := id
  uniform _ h := h.mark name
  scriptless := id
  named _ other hother := by
    rcases FilenameTable.isMarked_mark.mp hother with hbefore | ⟨rfl, -⟩
    · exact Or.inl hbefore
    · exact Or.inr hname

theorem admits_attributes : Admits (Attributes g names : Marking ω → Marking ω → Prop) where
  aside _ _ _ _ _ _ := .of_eq rfl rfl rfl
  delayed _ _ _ hdelayed := .of_marked (fun _ => id) rfl hdelayed
  delays _ := .of_eq rfl rfl rfl
  extend _ _ _ := .of_eq rfl rfl rfl
  pop _ := .of_eq rfl rfl rfl

end Marking.Attributes

namespace MarkM

open Marking (Attributes)

variable {g : Graph} {names : String → Prop}

/-- The children of a marked script are gone through with its name among them. -/
theorem yields_follow_script {id : ScriptId} {s : Marking ω}
    (hmarked : s.marks.isMarked id.thing = true)
    (hfollow : ∀ visits, KeepsOnly names visits →
      Respects (Attributes g names) (follow g (pushPlain g) visits : MarkM ω Unit)) :
    Yields (follow g (pushPlain g) (scriptVisits g true id)) s
      (fun _ => s.Attributes g names) fun _ => s.Attributes g names := by
  cases hid : g.script? id with
  | none =>
    have hbroken : scriptVisits g true id = [.broken .outOfBounds] := by rw [scriptVisits, hid]
    rw [hbroken]
    exact hfollow _ ((Enumeration.broken _).keepsOnly) s
  | some script =>
    have hbefore : KeepsOnly names (visitsBeforeName script) :=
      (Enumeration.visitsBeforeName script).keepsOnly
    have hafter : KeepsOnly names (visitsAfterName script) :=
      (Enumeration.visitsAfterName script).keepsOnly
    unfold follow at hfollow ⊢
    rw [scriptVisits_eq hid, if_pos rfl, yields_forM_append]
    refine (hfollow _ hbefore s).mono (fun _ t ht => ?_) fun _ _ h => h
    cases hname : script.filename with
    | none => exact (hfollow _ hafter).after ht
    | some name =>
      have hmem : name ∈ g.markedNames t.marks :=
        Graph.mem_markedNames.mpr ⟨id, script, ht.marked _ hmarked, hid, hname⟩
      exact (hfollow _ hafter).after (trans_of (Attributes g names) ht (.mark (Or.inr hmem)))

/-- What is kept in the scan of a script is the name of a marked script. -/
theorem attributes_pushScript (id : ScriptId)
    (hfollow : ∀ visits, KeepsOnly names visits →
      Respects (Attributes g names) (follow g (pushPlain g) visits : MarkM ω Unit)) :
    Respects (Attributes g names) (pushScript g id : MarkM ω Unit) := by
  intro s
  have hsame : s.Attributes g names s := refl_of (Attributes g names) s
  rw [pushScript, color, yields_bind, yields_bind, yields_get, yields_pure, yields_bind]
  refine yields_claim_of g hsame (fun _ => hsame) fun _ => ?_
  rw [if_pos rfl, yields_bind]
  -- From here on the script is marked, and who watches has been told of the scan.
  have hscanned : s.Attributes g names { s with
      marks := s.marks.set id.thing (.marked s.color)
      scanned := s.scanned.bump .script
      watcher := s.watcher.map fun watcher =>
        { watcher with memory := watcher.observer.onScan id.thing watcher.memory } } :=
    .of_marked (fun _ h => (ThingTable.isMarked_set ..).mpr (Or.inr h)) rfl fun _ => Or.inl
  refine (yields_follow_script ?_ hfollow).mono (fun _ _ => trans_of (Attributes g names) hscanned)
    fun _ _ => trans_of (Attributes g names) hscanned
  exact (ThingTable.isMarked_set ..).mpr (Or.inl rfl)

/-- No script waits, so taking up a delayed thing keeps no name. -/
theorem attributes_resumeDelayed
    (h : Inherited g names fun m : MarkM ω _ => Respects (Attributes g names) m) :
    Respects (Attributes g names) (resumeDelayed g : MarkM ω Bool) := by
  intro s
  by_cases hscriptless : s.Scriptless
  · have hpop : s.Attributes g names { s with delayed := s.delayed.pop.2 } :=
      Attributes.admits_attributes.delayed s _ (fun htidy => htidy.pop) fun thing hthing =>
        Or.inl (s.delayed.pop_subset.2 thing hthing)
    rw [resumeDelayed, yields_bind, yields_modifyGet]
    cases hnext : s.delayed.pop.1 with
    | none => exact hpop
    | some thing =>
      have hkind : thing.kind ≠ .script := hscriptless thing (s.delayed.pop_subset.1 thing hnext)
      have hchildren : Respects (Attributes g names)
          (follow g (pushThing g) (childVisits g true thing) : MarkM ω Unit) :=
        h.follow h.pushThing ((Quiet.childVisits fun _ => hkind).keepsOnly names)
      exact Respects.after (.bind (Attributes.admits_attributes.record _) fun _ =>
        .bind (h.noteScan thing) fun _ => .bind hchildren fun _ => .pure _) hpop
  · -- Nothing is claimed of the names, and marked things stay marked in any case.
    have hpaints : ∀ {t : Marking ω}, s.Paints t → s.Attributes g names t := fun h => {
      marked := fun thing hmarked => by rwa [ThingTable.isMarked, h.get_eq hmarked]
      scriptless := fun h => absurd h hscriptless
      uniform := fun h => absurd h hscriptless
      named := fun h => absurd h hscriptless }
    exact ((lasting_paints g).resumeDelayed s).mono (fun _ _ => hpaints) fun _ _ => hpaints

/-- Whatever a marker does, it marks a name for a reason. -/
theorem sustained_attributes (g : Graph) (names : String → Prop) :
    Sustained g names fun m : MarkM ω _ => Respects (Attributes g names) m := by
  have hinherited : Inherited g names fun m : MarkM ω _ => Respects (Attributes g names) m :=
    Attributes.admits_attributes.inherited g (fun _ thing _ _ => .set thing _) id .bind
      (fun _ _ hname => .mark (Or.inl hname)) attributes_pushScript
  exact Attributes.admits_attributes.sustained g id hinherited
    (attributes_resumeDelayed hinherited)

/-- Commands mark no names but those of marked scripts and those that they ask for. -/
theorem attributes_commands (g : Graph) (commands : List Command) :
    Respects (Attributes g (· ∈ commands.filterMap (Command.askedName? g)))
      (commands.forM (Command.make g) : MarkM ω Unit) := by
  refine .forM fun command hcommand => (sustained_attributes g _).command ?_
    (fun color => .modify fun _ => .of_eq rfl rfl rfl)
    fun request hrequest => Command.keepsOnly_visits (fun name hname => ?_) hrequest
  · exact .modify fun s =>
      .of_marked (fun _ => id) rfl fun _ hthing => absurd hthing List.not_mem_nil
  · exact List.mem_filterMap.mpr ⟨command, hcommand, hname⟩

section Names

open Marking (Retains)

variable {id : ScriptId} {script : ScriptCell} {name : String}
  (hscript : g.script? id = some script) (hname : script.filename = some name)

include hscript hname

theorem concludes_command (command : Command) :
    Concludes (Retains id.thing name) (command.make g : MarkM ω Unit) :=
  (lasting_retains hscript hname).command (Respects.concludes <| .modify fun _ => .of_eq rfl rfl)
    (fun _ => Respects.concludes <| .modify fun _ => .of_eq rfl rfl) fun _ _ _ _ _ => trivial

theorem concludes_commands (commands : List Command) :
    Concludes (Retains id.thing name) (commands.forM (Command.make g) : MarkM ω Unit) :=
  (lasting_retains hscript hname).forM fun command _ => concludes_command hscript hname command

/-- Once the children of a script have been asked for, its name is out of danger. -/
theorem yields_commands_keeps {commands : List Command}
    (hmem : .step (.call (.children id.thing)) ∈ commands) (s : Marking ω) :
    Yields (commands.forM (Command.make g)) s (fun _ t => t.filenames.Keeps name)
      fun _ _ => True := by
  obtain ⟨before, after, rfl⟩ := List.append_of_mem hmem
  rw [yields_forM_append]
  refine (concludes_commands hscript hname before s).imp fun _ t _ => ?_
  change Yields (MarkM.make g (.children id.thing) >>= fun _ => after.forM _) t _ _
  have hkeep : .keepFilename name ∈ scriptVisits g true id := by
    simp [scriptVisits, hscript, hname]
  have hchildren : Yields (MarkM.make g (.children id.thing)) t
      (fun _ u => u.filenames.Keeps name) fun _ _ => True :=
    yields_follow_keeps hkeep (fun visits => (lasting_retains hscript hname).follow
      (lasting_retains hscript hname).pushThing fun _ _ => trivial) t
  rw [yields_bind]
  exact hchildren.imp fun _ u hkeeps =>
    (concludes_commands hscript hname after u).imp fun _ _ hretains => hretains.kept hkeeps

end Names

end MarkM

namespace Launch

open MarkM SurveyM

variable {L : Launch ω} {before : Ledger} {commands : List Command} {t : Marking ω}

/-- The names that have a reason to be marked, in a state that the commands have led to. -/
theorem keeps_of_mem
    (hrun : commands.forM (Command.make L.graph) (L.startOn before.clearMarks) = .ok () t)
    {name : String} (hmem : name ∈ L.graph.markedNames t.marks ++
      commands.filterMap (Command.askedName? L.graph)) : t.filenames.Keeps name := by
  rcases List.mem_append.mp hmem with hscript | hasked
  · obtain ⟨id, script, hmarked, hscript, hname⟩ := Graph.mem_markedNames.mp hscript
    refine ((concludes_commands hscript hname commands _).of_ok hrun).marked (fun hbefore => ?_)
      hmarked
    exact absurd ((before.isMarked_clearMarks id.thing).symm.trans hbefore) Bool.false_ne_true
  · obtain ⟨command, hcommand, hasked⟩ := List.mem_filterMap.mp hasked
    obtain ⟨id, script, rfl, hscript, hname⟩ := Command.askedName?_eq_some.mp hasked
    exact (yields_commands_keeps hscript hname hcommand _).of_ok hrun

/-- No other name is marked. -/
theorem marked_iff_mem
    (hrun : commands.forM (Command.make L.graph) (L.startOn before.clearMarks) = .ok () t)
    {entry : String × Bool} (hentry : entry ∈ t.filenames.entries) :
    entry.2 = true ↔ entry.1 ∈ L.graph.markedNames t.marks ++
      commands.filterMap (Command.askedName? L.graph) := by
  have hattributes := (attributes_commands L.graph commands _).of_ok hrun
  obtain ⟨-, -, -, hdelayed, -⟩ := L.start_idle
  have hscriptless : (L.startOn before.clearMarks).Scriptless := fun thing hthing => by
    have hnone : L.start.delayed.things = [] := congrArg DelayedList.things hdelayed
    exact absurd (hnone ▸ hthing) List.not_mem_nil
  have huniform : t.filenames.Uniform :=
    hattributes.uniform hscriptless before.filenames.uniform_clearMarks
  rw [huniform entry hentry]
  refine ⟨fun hmarked => ?_, fun hmem =>
    keeps_of_mem hrun hmem (FilenameTable.contains_of_mem hentry)⟩
  rcases hattributes.named hscriptless entry.1 hmarked with hbefore | hasked | hscript
  · exact absurd ((before.filenames.isMarked_clearMarks _).symm.trans hbefore) Bool.false_ne_true
  · exact List.mem_append_right _ hasked
  · exact List.mem_append_left _ hscript

/-- The marked entries of the table of filenames can be told from the marked scripts, and so
can what a sweep leaves. Whatever a marker has been asked to do since all marks were cleared,
once it has returned an entry is marked if a marked script bears the name, or if the marker
was asked for the children of a script that bears it, and not otherwise. A sweep then keeps
these names and counts the others. Traversals by other tracers touch no mark at all. Where
segments fit memory and the commands name what is there, the marker returns. -/
theorem names_mirrored (L : Launch ω) (before : Ledger) (commands : List Command) :
    (∀ t, commands.forM (Command.make L.graph) (L.startOn before.clearMarks) = .ok () t →
      let names := L.graph.markedNames t.marks ++
        commands.filterMap (Command.askedName? L.graph)
      t.filenames.names = before.filenames.names ∧
      (∀ entry ∈ t.filenames.entries, entry.2 = true ↔ entry.1 ∈ names) ∧
      t.filenames.sweep.2.names = before.filenames.names.filter (· ∈ names) ∧
      t.filenames.sweep.1 = (before.filenames.names.filter (· ∉ names)).length) ∧
    (fitsMemory L.configuration.segmentSize entryBytes = true →
      (∀ command ∈ commands, command.KnownOn L.graph) →
      ∃ t, commands.forM (Command.make L.graph) (L.startOn before.clearMarks) = .ok () t) ∧
    ∀ (g : Graph) (traversals : List Traversal) (s t : Survey),
      (traversals.forM (Traversal.make g) s = .ok () t ∨
        ∃ fault, traversals.forM (Traversal.make g) s = .error fault t) →
      t.marks = s.marks ∧ t.filenames = s.filenames := by
  refine ⟨fun t hrun => ?_, fun hfits hknown => ?_, fun g traversals s t hrun => ?_⟩
  · have hnames : t.filenames.names = before.filenames.names :=
      ((Command.endures_forM L.graph commands _).of_ok hrun).names.trans
        before.filenames.names_clearMarks
    have hswept := FilenameTable.sweep_eq fun entry hentry => marked_iff_mem hrun hentry
    rw [hnames] at hswept
    exact ⟨hnames, fun entry hentry => marked_iff_mem hrun hentry, hswept⟩
  · have hrun := (L.ready_startOn before.clearMarks).yields_forM hknown
    obtain ⟨_, t, ht, -⟩ := Ready.exists_of_fits hfits hrun
    exact ⟨t, ht⟩
  · have hsame : s.SameLedger t := by
      rcases hrun with hok | ⟨fault, herror⟩
      · exact (respects_traversals traversals s).of_ok hok
      · exact (respects_traversals traversals s).of_error herror
    exact ⟨congrArg Ledger.marks hsame, congrArg Ledger.filenames hsame⟩

/-- Three scripts, two of them of one name. -/
def scripted : Launch Unit :=
  { sample 1 none with
    history := [.compartment "home", .script { compartment := ⟨1⟩, filename := some "a.js" },
      .script { compartment := ⟨1⟩, filename := some "lib.js" },
      .script { compartment := ⟨1⟩, filename := some "lib.js" }]
    grounded := by decide +kernel }

/-- One of the scripts of a name is marked, and the children of another script are asked for. -/
theorem names_mirrored_sample :
    let built : Ledger := (Heap.built scripted.history).ledger
    let before : Ledger := { built with filenames := built.filenames.intern "idle.js" }
    let commands : List Command := [.step (.call (.root "first" (some ⟨.script, 2⟩))),
      .recolor .gray, .step (.slice (.work 1)), .step (.call (.children ⟨.script, 0⟩)), .reset]
    let traversals : List Traversal := [.below ⟨.script, 2⟩, .edges (.children ⟨.script, 0⟩),
      .edges (.thing "script" ⟨.script, 1⟩)]
    fitsMemory scripted.configuration.segmentSize entryBytes = true ∧
    (∀ command ∈ commands, command.KnownOn scripted.graph) ∧
    (∃ t, commands.forM (Command.make scripted.graph) (scripted.startOn before.clearMarks) =
        .ok () t ∧
      t.filenames.names = ["a.js", "lib.js", "idle.js"] ∧
      (∀ entry ∈ t.filenames.entries, entry.2 = true ↔ entry.1 ∈ ["lib.js", "a.js"]) ∧
      t.filenames.sweep.2.names = ["a.js", "lib.js"] ∧ t.filenames.sweep.1 = 1) ∧
    ∃ t : Survey, traversals.forM (Traversal.make scripted.graph) ⟨before, {}⟩ = .ok () t ∧
      t.marks = before.marks ∧ t.filenames = before.filenames := by
  intro built before commands traversals
  have hfits : fitsMemory scripted.configuration.segmentSize entryBytes = true := by decide
  have hknown : ∀ command ∈ commands, command.KnownOn scripted.graph := by decide +kernel
  obtain ⟨hmirrored, hends, htraced⟩ := names_mirrored scripted before commands
  refine ⟨hfits, hknown, ?_, ?_⟩
  · obtain ⟨t, ht⟩ := hends hfits hknown
    have hyields : Yields (commands.forM (Command.make scripted.graph))
        (scripted.startOn before.clearMarks)
        (fun _ t => scripted.graph.markedNames t.marks = ["lib.js"]) fun _ _ => False := by
      decide +kernel
    have hscripts : scripted.graph.markedNames t.marks = ["lib.js"] := hyields.of_ok ht
    obtain ⟨hnames, hmarked, hkept, hcounted⟩ := hmirrored t ht
    rw [hscripts] at hmarked hkept hcounted
    refine ⟨t, ht, hnames.trans (by decide +kernel), hmarked, hkept.trans (by decide +kernel),
      hcounted.trans (by decide +kernel)⟩
  · -- There is nothing below the script of the first traversal, so nothing is explored.
    have hbegun : Yields (apart (TraceM.explored scripted.graph ⟨.script, 2⟩)) ⟨before, {}⟩
        (fun below t => below = [] ∧ Yields (traversals.tail.forM (Traversal.make scripted.graph))
          t (fun _ _ => True) fun _ _ => False) fun _ _ => False := by
      decide +kernel
    obtain ⟨t, ht⟩ : ∃ t, traversals.forM (Traversal.make scripted.graph) ⟨before, {}⟩ =
        .ok () t := by
      refine Yields.exists_end ?_
      change Yields ((apart (TraceM.explored scripted.graph ⟨.script, 2⟩) >>= fun below =>
        explore scripted.graph _ (below.map .visit)) >>= fun _ => traversals.tail.forM _) _ _ _
      rw [yields_bind, yields_bind]
      refine hbegun.imp fun below s hrest => ?_
      rw [hrest.1, List.map_nil, explore, yields_pure]
      exact hrest.2
    exact ⟨t, ht, htraced scripted.graph traversals _ t (Or.inl ht)⟩

/-- The children of a script have been asked for, and its name is marked although no script
is. -/
theorem name_kept_of_unmarked :
    let commands : List Command := [.step (.call (.children ⟨.script, 0⟩))]
    let before : Ledger := (Heap.built scripted.history).ledger
    ∃ t, commands.forM (Command.make scripted.graph) (scripted.startOn before.clearMarks) =
        .ok () t ∧
      ("a.js", true) ∈ t.filenames.entries ∧ scripted.graph.markedNames t.marks = [] := by
  intro commands before
  have hyields : Yields (commands.forM (Command.make scripted.graph))
      (scripted.startOn before.clearMarks)
      (fun _ t => ("a.js", true) ∈ t.filenames.entries ∧
        scripted.graph.markedNames t.marks = []) fun _ _ => False := by
    decide +kernel
  obtain ⟨_, t, ht, hkept, hunmarked⟩ := hyields.exists_post
  exact ⟨t, ht, hkept, hunmarked⟩

end Launch

end MarkPhase
