import MarkPhase.Proofs.Growth
import MarkPhase.Proofs.Interning
import MarkPhase.Proofs.Paddings
import MarkPhase.Proofs.Persistence

/-!
What collections leave of the names of scripts. A marker that marks a script marks the
entry of its filename along with it, and a sweep drops the other entries for good. So a
name is safe as long as every collection gets to a script that bears it, within the
compartment to which the collection is confined. References on the heap may lead nowhere, as
long as the collections come to an end.
-/

namespace MarkPhase

variable {ω : Type}

namespace FilenameTable

variable {table : FilenameTable} {name : String}

/-- The name is not in danger: if it has an entry, the entry is marked. -/
def Keeps (table : FilenameTable) (name : String) : Prop :=
  table.contains name = true → table.isMarked name = true

theorem contains_iff_mem_names : table.contains name = true ↔ name ∈ table.names := by
  simp [contains, names]

theorem contains_mark (other : String) :
    (table.mark other).contains name = true ↔ table.contains name = true := by
  rw [contains_iff_mem_names, contains_iff_mem_names, names_mark]

theorem keeps_mark_self (table : FilenameTable) (name : String) : (table.mark name).Keeps name :=
  fun hcontains => isMarked_mark.mpr (Or.inr ⟨rfl, (contains_mark name).mp hcontains⟩)

theorem Keeps.mark (h : table.Keeps name) (other : String) : (table.mark other).Keeps name :=
  fun hcontains => isMarked_mark.mpr (Or.inl (h ((contains_mark other).mp hcontains)))

end FilenameTable

/-- Between the two states a name out of danger has stayed so, and the script has not come to
be marked without its name. -/
structure Marking.Retains (script : Thing) (name : String) (s t : Marking ω) : Prop where
  kept : s.filenames.Keeps name → t.filenames.Keeps name
  marked : (s.marks.isMarked script = true → s.filenames.Keeps name) →
    t.marks.isMarked script = true → t.filenames.Keeps name

namespace Marking.Retains

variable {script : Thing} {name : String} {s t : Marking ω}

instance : IsPreorder (Marking ω) (Retains script name) where
  refl _ := ⟨id, id⟩
  trans _ _ _ h h' := ⟨h'.kept ∘ h.kept, h'.marked ∘ h.marked⟩

theorem of_eq (hmarked : t.marks.isMarked script = s.marks.isMarked script)
    (hnames : t.filenames = s.filenames) : s.Retains script name t := by
  refine ⟨fun hkeeps => hnames ▸ hkeeps, fun hbefore hafter => ?_⟩
  rw [hnames]
  exact hbefore (hmarked ▸ hafter)

/-- Something else is marked. -/
theorem set {thing : Thing} (hne : thing ≠ script) (shade : Shade) :
    s.Retains script name { s with marks := s.marks.set thing shade } := by
  refine of_eq ?_ rfl
  change (s.marks.set thing shade).isMarked script = _
  rw [ThingTable.isMarked, ThingTable.get_set, if_neg hne]
  rfl

theorem admits_retains : Admits (Retains script name : Marking ω → Marking ω → Prop) :=
  .of_eq fun hmarks hnames _ => .of_eq (by rw [hmarks]) hnames

end Marking.Retains

namespace MarkM

open Marking (Retains)

variable {g : Graph} {script : Thing} {name : String}

/-- Once the name has been visited, it stays out of danger. -/
theorem yields_follow_keeps {push : Thing → MarkM ω Unit} {visits : List Visit}
    (hmem : .keepFilename name ∈ visits)
    (hfollow : ∀ visits, Concludes (Retains script name) (follow g push visits))
    (s : Marking ω) : Yields (follow g push visits) s (fun _ t => t.filenames.Keeps name)
      (fun _ _ => True) := by
  obtain ⟨before, after, rfl⟩ := List.append_of_mem hmem
  unfold follow at hfollow ⊢
  rw [yields_forM_append]
  refine (hfollow before s).imp fun _ t _ => ?_
  change Yields (visit g push (.keepFilename name) >>= fun _ => after.forM _) t _ _
  rw [yields_bind]
  exact (hfollow after _).imp fun _ _ hretains => hretains.kept (t.filenames.keeps_mark_self name)

section Script

variable {id : ScriptId} {cell : ScriptCell} (hscript : g.script? id = some cell)
  (hname : cell.filename = some name)

include hscript hname

/-- A script is marked together with its name, unless the scan stops at a fault. -/
theorem concludes_pushScript (other : ScriptId)
    (hfollow : ∀ visits, Concludes (Retains id.thing name)
      (follow g (pushPlain g) visits : MarkM ω Unit)) :
    Concludes (Retains id.thing name) (pushScript g other : MarkM ω Unit) := by
  intro s
  have hsame : s.Retains id.thing name s := refl_of (Retains id.thing name) s
  rw [pushScript, color, yields_bind, yields_bind, yields_get, yields_pure, yields_bind]
  refine yields_claim_of g hsame (fun _ => trivial) fun _ => ?_
  rw [if_pos rfl, yields_bind]
  by_cases heq : other = id
  · subst heq
    have hmem : .keepFilename name ∈ scriptVisits g true other := by
      simp [scriptVisits, hscript, hname]
    refine (yields_follow_keeps hmem hfollow _).imp fun _ t hkeeps => ?_
    exact ⟨fun _ => hkeeps, fun _ _ => hkeeps⟩
  · -- Only the other script is marked so far, and who watches has been told of the scan.
    refine (hfollow _ _).imp fun _ t hrest => trans_of (Retains id.thing name) ?_ hrest
    have hmarked : s.Retains id.thing name { s with
        marks := s.marks.set other.thing (.marked s.color) } :=
      .set (heq ∘ Ref.thing_injective) _
    exact ⟨hmarked.kept, hmarked.marked⟩

theorem lasting_retains :
    Lasting g (fun m : MarkM ω _ => Concludes (Retains id.thing name) m) :=
  Retains.admits_retains.lasting g
    (fun _ _ hkind _ => .set (fun heq => hkind (congrArg Thing.kind heq)) _)
    Respects.concludes .bind
    (fun _ other =>
      ⟨fun hkeeps => hkeeps.mark other, fun hbefore hmarked => (hbefore hmarked).mark other⟩)
    (concludes_pushScript hscript hname)

end Script

end MarkM

/-! Collections. -/

/-- Drops the names that nobody has marked. -/
def Ledger.sweepFilenames (ledger : Ledger) : Ledger :=
  { ledger with filenames := ledger.filenames.sweep.2 }

/-- A new marker with what it is asked to do and the budget of its last drain. -/
structure Collection (ω : Type) where
  configuration : Configuration
  marker : Marker ω
  made : Marker.make configuration = .ok marker
  context : Context
  color : Color
  watcher : Option (Watcher ω)
  steps : List Step
  budget : Budget

namespace Collection

variable (c : Collection ω) (g : Graph)

def start (ledger : Ledger) : Marking ω :=
  { toLedger := ledger
    toMarker := { c.marker with context := c.context, color := c.color, watcher := c.watcher } }

/-- All steps and then the last drain, which tells whether nothing is left to do. -/
def run : MarkM ω Bool := do
  c.steps.forM (Step.make g)
  MarkM.drain g c.budget

/-- Marks are cleared, the marker does what it is asked to do, and where nothing is left to
do the filenames are swept. -/
def collect (ledger : Ledger) (c : Collection ω) : Option Ledger :=
  match c.run g (c.start ledger.clearMarks) with
  | .ok true t => some t.toLedger.sweepFilenames
  | _ => none

def roots : List Thing :=
  c.steps.flatMap (Step.roots g c.context.compartment)

/-- Within its compartment the collection gets from its roots to a script of that name. -/
def Reaches (name : String) : Prop :=
  ∃ id script, g.script? id = some script ∧ script.filename = some name ∧
    g.Reachable c.context.compartment (c.roots g) id.thing

variable {c g} {ledger after : Ledger} {t : Marking ω} {finished : Bool}

theorem exists_run_of_collect (h : collect g ledger c = some after) :
    ∃ t, c.run g (c.start ledger.clearMarks) = .ok true t ∧ after = t.toLedger.sweepFilenames := by
  unfold collect at h
  split at h
  · rename_i t hrun
    exact ⟨t, hrun, (Option.some.inj h).symm⟩
  · cases h

theorem names_run (h : c.run g (c.start ledger) = .ok finished t) :
    t.filenames.names = ledger.filenames.names := by
  have hlasting : Lasting g (fun m : MarkM ω _ => Respects Marking.Develops m) :=
    MarkM.lasting_develops g
  have hrun : Respects Marking.Develops (c.run g) :=
    hlasting.bind (hlasting.steps c.steps) fun _ => hlasting.drain c.budget
  exact ((hrun _).of_ok h).names

/-- A run that marks a script marks its name, if the name has an entry. -/
theorem keeps_run {id : ScriptId} {script : ScriptCell} {name : String}
    (hscript : g.script? id = some script) (hname : script.filename = some name)
    (hrun : c.run g (c.start ledger) = .ok finished t)
    (hbefore : ledger.marks.isMarked id.thing = false)
    (hafter : t.marks.isMarked id.thing = true) : t.filenames.Keeps name := by
  have hlasting : Lasting g (fun m : MarkM ω _ => Concludes (Marking.Retains id.thing name) m) :=
    MarkM.lasting_retains hscript hname
  have hretains : Concludes (Marking.Retains id.thing name) (c.run g) :=
    hlasting.bind (hlasting.steps c.steps) fun _ => hlasting.drain c.budget
  refine ((hretains _).of_ok hrun).marked (fun hmarked => ?_) hafter
  exact absurd (hbefore.symm.trans hmarked) Bool.false_ne_true

variable {history : List Construction} {before : Ledger} {name : String}

/-- A new marker has neither work nor delayed things. -/
theorem start_idle (c : Collection ω) (ledger : Ledger) : (c.start ledger).stack.items = [] ∧
    (c.start ledger).stack.Tidy ∧ (c.start ledger).delayed = {} := by
  obtain ⟨hitems, htidy, -, hdelayed, -⟩ := Marker.idle_of_make c.made
  exact ⟨hitems, htidy, hdelayed⟩

/-- A run that leaves nothing to do has marked whatever may be reached from its roots. It goes
as it would on a sound graph that has the heap for its front part. -/
theorem isMarked_of_run (hwords : (Heap.built history).graph.WordSized)
    (hunmarked : ∀ thing, ledger.marks.isMarked thing = false)
    (hrun : c.run (Heap.built history).graph (c.start ledger) = .ok true t) {thing : Thing}
    (hreachable : (Heap.built history).graph.Reachable c.context.compartment
      (c.roots (Heap.built history).graph) thing) : t.marks.isMarked thing = true := by
  obtain ⟨g, hsound, hextends, hwordSized⟩ := Heap.exists_sound history
  obtain ⟨_, s, hsteps, hdrain⟩ := exists_ok_of_bind hrun
  have hsteps : c.steps.forM (Step.make g) (c.start ledger) = .ok () s :=
    Persists.forM hextends.persists_step hsteps
  have hdrain : MarkM.drain g c.budget s = .ok true t := hextends.persists_drain c.budget hdrain
  let S : Setting ω :=
    .reaching hsound ledger (c.start ledger).toMarker (c.roots g) False False.elim
  obtain ⟨hitems, htidy, hdelayed⟩ := c.start_idle ledger
  have htracks : S.Tracks [] [] (Outline.start ledger.marks) (c.start ledger) :=
    S.tracks_start hitems htidy hdelayed False.elim
  have hstart : (Outline.start ledger.marks).Balanced S.toTerrain :=
    Outline.balanced_start hunmarked
  obtain ⟨o, -, hends, hbalanced, hreached, hwork, hidle⟩ := htracks.exists_drained hstart
    (fun thing hthing hallowed => .root hthing hallowed) hsteps hdrain
  have hroots : c.roots (Heap.built history).graph ⊆ c.roots g :=
    hextends.roots_subset c.context.compartment c.steps
  rw [hends.marks]
  exact Setting.marked_of_idle (hwordSized hwords) hbalanced hreached hwork hidle
    (hextends.reachable hroots hreachable)

/-- A name is still there after a collection that reaches a script of that name. -/
theorem contains_collect (hwords : (Heap.built history).graph.WordSized)
    (hcollect : collect (Heap.built history).graph ledger c = some after)
    (hreached : c.Reaches (Heap.built history).graph name)
    (hheld : ledger.filenames.contains name = true) : after.filenames.contains name = true := by
  obtain ⟨t, hrun, rfl⟩ := exists_run_of_collect hcollect
  obtain ⟨id, script, hscript, hname, hreachable⟩ := hreached
  have hmarked : t.marks.isMarked id.thing = true :=
    isMarked_of_run hwords ledger.isMarked_clearMarks hrun hreachable
  have hkeeps := keeps_run hscript hname hrun (ledger.isMarked_clearMarks _) hmarked
  have hcontains : t.filenames.contains name = true := by
    rw [FilenameTable.contains_iff_mem_names] at hheld ⊢
    rw [names_run hrun]
    exact (ledger.filenames.names_clearMarks).symm ▸ hheld
  exact FilenameTable.contains_sweep.trans (hkeeps hcontains)

theorem contains_foldlM (hwords : (Heap.built history).graph.WordSized)
    {collections : List (Collection ω)}
    (hcollected : collections.foldlM (collect (Heap.built history).graph) before = some after)
    (hreached : ∀ c ∈ collections, c.Reaches (Heap.built history).graph name)
    (hheld : before.filenames.contains name = true) : after.filenames.contains name = true := by
  induction collections generalizing before with
  | nil =>
    obtain rfl := Option.some.inj hcollected
    exact hheld
  | cons c collections ih =>
    rw [List.foldlM_cons] at hcollected
    obtain ⟨between, hfirst, hrest⟩ := Option.bind_eq_some_iff.mp hcollected
    refine ih hrest (fun other hother => hreached other (List.mem_cons_of_mem _ hother)) ?_
    exact contains_collect hwords hfirst (hreached c (List.mem_cons_self ..)) hheld

/-- The filename of a script outlives all collections that reach the script, or another one
of the same name, from their roots and within their compartments. They may start from any
table that has the names which building has put there. A later run that marks the script
marks its name. -/
theorem filename_survives (hwords : (Heap.built history).graph.WordSized)
    {collections : List (Collection ω)}
    (hbuilt : ∀ name, (Heap.built history).ledger.filenames.contains name = true →
      before.filenames.contains name = true)
    (hcollected : collections.foldlM (collect (Heap.built history).graph) before = some after)
    {id : ScriptId} {script : ScriptCell}
    (hscript : (Heap.built history).graph.script? id = some script)
    (hname : script.filename = some name)
    (hreached : ∀ c ∈ collections, c.Reaches (Heap.built history).graph name) :
    after.filenames.contains name = true ∧
      ∀ (later : Collection ω) {ledger : Ledger} {finished : Bool} {t : Marking ω},
        ledger.filenames.names = after.filenames.names →
        ledger.marks.isMarked id.thing = false →
        later.run (Heap.built history).graph (later.start ledger) = .ok finished t →
        t.marks.isMarked id.thing = true → t.filenames.isMarked name = true := by
  have hfiled : (Heap.built history).ledger.filenames.contains name = true :=
    Heap.filed_built history script (Array.mem_of_getElem? hscript) name hname
  have hcontains := contains_foldlM hwords hcollected hreached (hbuilt name hfiled)
  refine ⟨hcontains, fun later ledger finished t hnames hbefore hrun hafter => ?_⟩
  refine keeps_run hscript hname hrun hbefore hafter ?_
  rw [FilenameTable.contains_iff_mem_names] at hcontains ⊢
  rwa [names_run hrun, hnames]

/-- A collection whose first root is the first script of the heap. -/
def sample (filter : Option CompartmentId) (steps : List Step) : Collection ω where
  configuration := { stackLimit := 1, segmentSize := 2, maxCached := 0 }
  marker :=
    { stack :=
        { itemBytes := entryBytes, segmentSize := 2, maxCached := 0,
          maxSize := SegmentedStack.boundOf 1 } }
  made := rfl
  context := { compartment := filter }
  color := .black
  watcher := none
  steps := .call (.root "first" (some ⟨.script, 0⟩)) :: steps
  budget := .unlimited

theorem mem_roots_sample (g : Graph) (filter : Option CompartmentId) (steps : List Step) :
    (⟨.script, 0⟩ : Thing) ∈ (sample filter steps : Collection ω).roots g :=
  List.mem_append_left _ (List.mem_singleton_self _)

/-- The script abroad is no root of the first collection, but the one at home has its name. The
base of the first shape is not there. -/
theorem filename_survives_sample :
    let history : List Construction := [.compartment "home", .compartment "abroad",
      .shape ⟨1⟩ ⟨0⟩ .void none, .script { compartment := ⟨1⟩, filename := some "lib.js" },
      .script { compartment := ⟨2⟩, filename := some "lib.js" }]
    let g := (Heap.built history).graph
    let before : Ledger := { (Heap.built history).ledger with
      filenames := (Heap.built history).ledger.filenames.intern "idle.js" }
    let collections : List (Collection Unit) := [sample (some ⟨1⟩) [],
      sample none [.slice (.work 1), .call (.unnamed ⟨.script, 1⟩)]]
    let later : Collection Unit := sample none [.call (.unnamed ⟨.script, 1⟩)]
    ∃ script after t, ¬ Grounded history ∧ g.WordSized ∧
      (∀ name, (Heap.built history).ledger.filenames.contains name = true →
        before.filenames.contains name = true) ∧
      collections.foldlM (collect g) before = some after ∧
      g.script? ⟨1⟩ = some script ∧ script.filename = some "lib.js" ∧
      (∀ c ∈ collections, c.Reaches g "lib.js") ∧
      after.filenames.contains "lib.js" = true ∧ after.filenames.contains "idle.js" = false ∧
      later.run g (later.start after.clearMarks) = .ok true t ∧
      t.filenames.isMarked "lib.js" = true := by
  intro history g before collections later
  have dangling : ¬ Grounded history := by decide +kernel
  have hwords : g.WordSized := by decide +kernel
  have hbuilt : ∀ name, (Heap.built history).ledger.filenames.contains name = true →
      before.filenames.contains name = true :=
    fun name hname => FilenameTable.contains_intern.mpr (Or.inl hname)
  have hreached : ∀ c ∈ collections, c.Reaches g "lib.js" := by
    intro c hc
    rcases List.mem_pair.mp hc with rfl | rfl <;>
      exact ⟨⟨0⟩, _, rfl, rfl, .root (mem_roots_sample ..) ⟨⟨1⟩, rfl, rfl⟩⟩
  obtain ⟨after, hafter, hidle, finished, t, ht, rfl, hmarked⟩ : ∃ after ∈
      collections.foldlM (collect g) before, after.filenames.contains "idle.js" = false ∧
      ∃ finished t, later.run g (later.start after.clearMarks) = .ok finished t ∧
        finished = true ∧ t.marks.isMarked ⟨.script, 1⟩ = true :=
    Exists.imp (fun _ => And.imp_right (And.imp_right Yields.exists_post)) (by decide +kernel)
  have hscript : g.script? ⟨1⟩ = some { compartment := ⟨2⟩, filename := some "lib.js" } := rfl
  have hsurvives := filename_survives hwords hbuilt hafter hscript rfl hreached
  exact ⟨_, after, t, dangling, hwords, hbuilt, hafter, hscript, rfl, hreached, hsurvives.1, hidle,
    ht, hsurvives.2 later after.filenames.names_clearMarks (after.isMarked_clearMarks _) ht hmarked⟩

/-- A collection that is confined to one compartment does not get to the script of another,
and the name of that script is gone. A later run marks the script, but no entry. -/
theorem filename_lost_abroad :
    let history : List Construction := [.compartment "home", .compartment "abroad",
      .script { compartment := ⟨2⟩, filename := some "b.js" }]
    let g := (Heap.built history).graph
    let confined : Collection Unit := sample (some ⟨1⟩) []
    let later : Collection Unit := sample none []
    ∃ script after t, Grounded history ∧ g.script? ⟨0⟩ = some script ∧
      script.filename = some "b.js" ∧ g.Reachable none (confined.roots g) ⟨.script, 0⟩ ∧
      [confined].foldlM (collect g) (Heap.built history).ledger = some after ∧
      after.filenames.contains "b.js" = false ∧
      later.run g (later.start after.clearMarks) = .ok true t ∧
      t.marks.isMarked ⟨.script, 0⟩ = true ∧ t.filenames.isMarked "b.js" = false := by
  intro history g confined later
  obtain ⟨after, hafter, hlost, finished, t, ht, rfl, hmarked, hunmarked⟩ : ∃ after ∈
      [confined].foldlM (collect g) (Heap.built history).ledger,
      after.filenames.contains "b.js" = false ∧
      ∃ finished t, later.run g (later.start after.clearMarks) = .ok finished t ∧
        finished = true ∧ t.marks.isMarked ⟨.script, 0⟩ = true ∧
        t.filenames.isMarked "b.js" = false :=
    Exists.imp (fun _ => And.imp_right (And.imp_right Yields.exists_post)) (by decide +kernel)
  exact ⟨_, after, t, by decide +kernel, rfl, rfl, .root (mem_roots_sample ..) ⟨⟨2⟩, rfl, rfl⟩,
    hafter, hlost, ht, hmarked, hunmarked⟩

end Collection

end MarkPhase
