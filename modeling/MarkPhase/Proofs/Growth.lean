import MarkPhase.Proofs.Changes

/-!
What lasts and what grows. While a marker is at work its bound and its filter stay what
they are and no filename loses its entry. The number of delays and the peak of the stack
never go down, and the peak does not pass the bound.
-/

namespace MarkPhase

variable {ω : Type}

namespace FilenameTable

variable (table : FilenameTable) (name : String)

/-- The names in the table, in their order. -/
def names : List String :=
  table.entries.map Prod.fst

@[simp]
theorem names_mark : (table.mark name).names = table.names := by
  unfold names mark
  rw [List.map_map]
  refine List.map_congr_left fun entry _ => ?_
  rw [Function.comp_apply]
  split
  · rename_i heq
    exact (beq_iff_eq.mp heq).symm
  · rfl

/-- Nothing but the names is left when the marks are cleared. -/
theorem clearMarks_eq : table.clearMarks = ⟨table.names.map (·, false)⟩ := by
  unfold clearMarks names
  rw [List.map_map]
  rfl

theorem names_clearMarks : table.clearMarks.names = table.names := by
  rw [clearMarks_eq, names, List.map_map]
  exact List.map_id _

end FilenameTable

theorem Ledger.isMarked_clearMarks (ledger : Ledger) (thing : Thing) :
    ledger.clearMarks.marks.isMarked thing = false := by
  change ThingTable.isMarked {} thing = false
  rw [ThingTable.isMarked, ThingTable.get_empty]
  rfl

/-- Between the two states the marker has kept its settings, and every filename its entry. -/
structure Marking.Endures (s t : Marking ω) : Prop where
  maxSize : t.stack.maxSize = s.stack.maxSize
  segmentSize : t.stack.segmentSize = s.stack.segmentSize
  itemBytes : t.stack.itemBytes = s.stack.itemBytes
  tidy : s.stack.Tidy → t.stack.Tidy
  filter : t.context.compartment = s.context.compartment
  names : t.filenames.names = s.filenames.names

/-- Besides, delays are counted up only, and the peak has risen within the bound at most. -/
structure Marking.Develops (s t : Marking ω) : Prop extends s.Endures t where
  delays : s.delays ≤ t.delays
  peak : s.stack.peak ≤ t.stack.peak
  peak_le : s.stack.Tidy → s.stack.peak ≤ s.stack.maxSize → t.stack.peak ≤ t.stack.maxSize

namespace Marking

variable {s t : Marking ω}

instance : IsPreorder (Marking ω) Endures where
  refl _ := ⟨rfl, rfl, rfl, id, rfl, rfl⟩
  trans _ _ _ h h' := {
    maxSize := h'.maxSize.trans h.maxSize
    segmentSize := h'.segmentSize.trans h.segmentSize
    itemBytes := h'.itemBytes.trans h.itemBytes
    tidy := h'.tidy ∘ h.tidy
    filter := h'.filter.trans h.filter
    names := h'.names.trans h.names }

instance : IsPreorder (Marking ω) Develops where
  refl s := ⟨refl_of Endures s, le_rfl, le_rfl, fun _ => id⟩
  trans _ _ _ h h' := {
    toEndures := trans_of Endures h.toEndures h'.toEndures
    delays := h.delays.trans h'.delays
    peak := h.peak.trans h'.peak
    peak_le := fun htidy hle => h'.peak_le (h.tidy htidy) (h.peak_le htidy hle) }

theorem Endures.of_eq (hstack : t.stack = s.stack)
    (hfilter : t.context.compartment = s.context.compartment)
    (hnames : t.filenames.names = s.filenames.names) : s.Endures t :=
  ⟨by rw [hstack], by rw [hstack], by rw [hstack], fun htidy => hstack ▸ htidy, hfilter, hnames⟩

theorem Develops.of_eq (hstack : t.stack = s.stack)
    (hfilter : t.context.compartment = s.context.compartment)
    (hnames : t.filenames.names = s.filenames.names) (hdelays : s.delays ≤ t.delays) :
    s.Develops t :=
  ⟨.of_eq hstack hfilter hnames, hdelays, by rw [hstack], fun _ hle => by rwa [hstack]⟩

theorem Develops.extend (hadmits : s.stack.admits = .ok true) (entry : StackEntry) :
    s.Develops { s with stack := (s.stack.extend entry).notePeak } := by
  obtain ⟨hbelow, -⟩ := SegmentedStack.admits_eq_true_iff.mp hadmits
  exact {
    maxSize := SegmentedStack.maxSize_extend _ _
    segmentSize := SegmentedStack.segmentSize_extend _ _
    itemBytes := SegmentedStack.itemBytes_extend _ _
    tidy := fun htidy => htidy.extend entry
    filter := rfl
    names := rfl
    delays := le_rfl
    peak := by
      rw [← SegmentedStack.peak_extend s.stack entry]
      exact Nat.le_max_left _ _
    peak_le := fun htidy hle => by
      simp only [SegmentedStack.notePeak, SegmentedStack.peak_extend,
        SegmentedStack.maxSize_extend, htidy.size_extend]
      omega }

end Marking

theorem Marking.admits_develops : Admits (Develops : Marking ω → Marking ω → Prop) where
  aside _ _ _ _ _ _ := .of_eq rfl rfl rfl le_rfl
  delayed _ _ _ _ := .of_eq rfl rfl rfl le_rfl
  delays _ := .of_eq rfl rfl rfl (Nat.le_succ _)
  extend _ entry hadmits := .extend hadmits entry
  pop s := by
    obtain ⟨hsegment, hbytes, hmax, hpeak⟩ := s.stack.settings_pop
    exact ⟨⟨hmax, hsegment, hbytes, fun htidy => htidy.pop, rfl, rfl⟩, le_rfl, hpeak.ge,
      fun _ hle => by rw [hpeak, hmax]; exact hle⟩

theorem MarkM.develops_claim (g : Graph) (thing : Thing) (color : Color) :
    Respects Marking.Develops (claim g thing color : MarkM ω Bool) :=
  fun s => yields_claim_of g (refl_of Marking.Develops s) (fun _ => refl_of Marking.Develops s)
    fun _ => .of_eq rfl rfl rfl le_rfl

/-- Whatever a marker does, its run develops. -/
theorem MarkM.lasting_develops (g : Graph) :
    Lasting g (fun m : MarkM ω _ => Respects Marking.Develops m) :=
  Marking.admits_develops.lasting_respects g (fun _ _ _ => .of_eq rfl rfl rfl le_rfl)
    fun s name => .of_eq rfl rfl (s.filenames.names_mark name) le_rfl

end MarkPhase
