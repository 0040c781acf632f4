import MarkPhase.Proofs.Histories

/-!
The names of scripts. A building call that adds a script gives its filename an entry, and
no other call adds scripts or touches the table. So on a heap that has been built every
script has its filename in the table.
-/

namespace MarkPhase

namespace FilenameTable

variable {table : FilenameTable} {name other : String}

theorem contains_intern : (table.intern other).contains name = true ↔
    table.contains name = true ∨ other = name := by
  unfold intern
  split
  · rename_i hcontains
    refine ⟨Or.inl, ?_⟩
    rintro (hname | rfl)
    · exact hname
    · exact hcontains
  · simp [contains]

/-- A mark is set where the name has an entry, and no mark is taken away. -/
theorem isMarked_mark : (table.mark other).isMarked name = true ↔
    table.isMarked name = true ∨ (other = name ∧ table.contains name = true) := by
  unfold mark isMarked contains
  simp only [List.any_map, List.any_eq_true, Function.comp_apply, Bool.and_eq_true, beq_iff_eq,
    Prod.exists, Bool.exists_bool]
  grind

/-- What is left after a sweep are the names that were marked. -/
theorem contains_sweep : table.sweep.2.contains name = table.isMarked name := by
  unfold sweep contains isMarked
  simp only [List.any_filter]
  congr 1
  funext entry
  exact Bool.and_comm ..

end FilenameTable

namespace Heap

/-- Every script has its filename in the table. -/
def Filed (heap : Heap) : Prop :=
  ∀ script ∈ heap.graph.scripts, ∀ name, script.filename = some name →
    heap.ledger.filenames.contains name = true

/-- What has been filed before is filed after. -/
def StaysFiled (before after : Heap) : Prop :=
  before.Filed → after.Filed

instance : IsPreorder Heap StaysFiled where
  refl _ := id
  trans _ _ _ h h' := h' ∘ h

theorem StaysFiled.of_eq {before after : Heap}
    (hscripts : after.graph.scripts = before.graph.scripts)
    (hnames : after.ledger.filenames = before.ledger.filenames) : before.StaysFiled after := by
  unfold StaysFiled Filed
  rw [hscripts, hnames]
  exact id

end Heap

namespace Builder

open Heap (StaysFiled)

/-- A new script is filed together with its name. -/
theorem files_newScript (script : ScriptCell) : Respects StaysFiled (newScript script) := by
  intro heap
  have hscripts : ∀ {other : ScriptCell}, other ∈ heap.graph.scripts.push script →
      other ∈ heap.graph.scripts ∨ other = script := Array.mem_push.mp
  unfold newScript
  cases hname : script.filename with
  | none =>
    intro hfiled other hother name hother'
    rcases hscripts hother with hold | rfl
    · exact hfiled other hold name hother'
    · rw [hname] at hother'
      cases hother'
  | some filename =>
    intro hfiled other hother name hother'
    refine FilenameTable.contains_intern.mpr ?_
    rcases hscripts hother with hold | rfl
    · exact Or.inl (hfiled other hold name hother')
    · rw [hname] at hother'
      exact Or.inr (Option.some.inj hother')

end Builder

theorem Construction.files_perform (call : Construction) :
    Respects Heap.StaysFiled call.perform := by
  by_cases hkind : call.kind? = some .script
  · cases call with
    | script cell => exact .bind (Builder.files_newScript cell) fun _ => .pure _
    | _ => cases hkind
  · exact fun heap => (spares_perform hkind heap).mono
      (fun _ _ hspares => .of_eq hspares.cells (hspares.filenames rfl))
      fun _ _ hspares => .of_eq hspares.cells (hspares.filenames rfl)

namespace Heap

/-- Whatever a history builds, its scripts are filed. -/
theorem filed_built (history : List Construction) : (built history).Filed := by
  induction history using List.reverseRecOn with
  | nil => exact fun script hscript => absurd hscript (Array.not_mem_empty script)
  | append_singleton before call ih =>
    simp only [built, List.foldl_append, List.foldl_cons, List.foldl_nil]
    exact after_of_yields (call.files_perform (built before)) ih

end Heap

end MarkPhase
