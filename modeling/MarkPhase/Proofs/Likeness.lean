import MarkPhase.Proofs.Moves
import MarkPhase.Proofs.Tracking

/-!
States that look alike. Two runs of a marker that never has an entry refused may differ
in what they ask their observer, in their journals, in how their stacks are cut into
segments and, by one, in the greatest depth of their stacks. None of this has any
influence on what a marker does: from states that look alike a faithful move gives the
same answer and leaves states that look alike, and every move of a marker is faithful.
-/

namespace MarkPhase

variable {ω α β : Type}

/-- An observer that refuses nothing, and of whose memory only the things it has been told
to be scanned are looked at. -/
structure Observer.Scribe (observer : Observer ω) (seen : ω → List Thing) : Prop where
  never : ∀ entry memory, (observer.refuses entry memory).1 = false
  asked : ∀ entry memory, seen (observer.refuses entry memory).2 = seen memory
  told : ∀ thing memory, seen (observer.onScan thing memory) = seen memory ++ [thing]

/-- Watchers that have seen the same scans. -/
structure Watcher.Alike (seen : ω → List Thing) (watcher other : Watcher ω) : Prop where
  scribe : watcher.observer.Scribe seen
  observer : watcher.observer = other.observer
  memory : seen watcher.memory = seen other.memory

theorem Watcher.rel_cases {seen : ω → List Thing} {watcher other : Option (Watcher ω)}
    (h : Option.Rel (Watcher.Alike seen) watcher other) :
    (watcher = none ∧ other = none) ∨
      ∃ w v, watcher = some w ∧ other = some v ∧ w.Alike seen v := by
  cases h with
  | none => exact Or.inl ⟨rfl, rfl⟩
  | some h => exact Or.inr ⟨_, _, rfl, rfl, h⟩

/-- Stacks that hold the same items. The peak of the first is the higher one, by one at
most. -/
structure SegmentedStack.Alike (stack other : SegmentedStack StackEntry) : Prop where
  tidy : stack.Tidy
  otherTidy : other.Tidy
  items : stack.items = other.items
  maxSize : stack.maxSize = other.maxSize
  segmentSize : stack.segmentSize = other.segmentSize
  itemBytes : stack.itemBytes = other.itemBytes
  peak_ge : other.peak ≤ stack.peak
  peak_le : stack.peak ≤ other.peak + 1

structure Marking.Alike (seen : ω → List Thing) (s u : Marking ω) : Prop where
  marks : s.marks = u.marks
  filenames : s.filenames = u.filenames
  context : s.context = u.context
  color : s.color = u.color
  stack : s.stack.Alike u.stack
  delayed : s.delayed = u.delayed
  scanned : s.scanned = u.scanned
  delays : s.delays = u.delays
  watcher : Option.Rel (Watcher.Alike seen) s.watcher u.watcher

/-- The same answer or the same fault, and states that look alike. -/
inductive Same (seen : ω → List Thing) :
    EStateM.Result Fault (Marking ω) α → EStateM.Result Fault (Marking ω) α → Prop
  | ok {a : α} {s u : Marking ω} (halike : s.Alike seen u) : Same seen (.ok a s) (.ok a u)
  | error {fault : Fault} {s u : Marking ω} : Same seen (.error fault s) (.error fault u)

/-- The move cannot tell states apart that look alike. -/
def Faithful (seen : ω → List Thing) (m : MarkM ω α) : Prop :=
  ∀ ⦃s u : Marking ω⦄, s.Alike seen u → Same seen (m s) (m u)

namespace SegmentedStack.Alike

variable {stack other : SegmentedStack StackEntry}

theorem size (h : stack.Alike other) : stack.size = other.size := by
  rw [h.tidy.size_eq, h.otherTidy.size_eq, h.items]

theorem isEmpty (h : stack.Alike other) : stack.isEmpty = other.isEmpty := by
  rw [Bool.eq_iff_iff, h.tidy.isEmpty_iff, h.otherTidy.isEmpty_iff, h.items]

theorem admits (h : stack.Alike other) : stack.admits = other.admits := by
  unfold SegmentedStack.admits SegmentedStack.isFull
  rw [h.maxSize, h.size, h.segmentSize, h.itemBytes]

theorem extend (h : stack.Alike other) (entry : StackEntry) :
    (stack.extend entry).notePeak.Alike (other.extend entry).notePeak where
  tidy := h.tidy.extend entry
  otherTidy := h.otherTidy.extend entry
  items := by
    rw [items_notePeak, items_notePeak, h.tidy.items_extend, h.otherTidy.items_extend, h.items]
  maxSize := (maxSize_extend _ _).trans (h.maxSize.trans (maxSize_extend _ _).symm)
  segmentSize := (segmentSize_extend _ _).trans (h.segmentSize.trans (segmentSize_extend _ _).symm)
  itemBytes := (itemBytes_extend _ _).trans (h.itemBytes.trans (itemBytes_extend _ _).symm)
  peak_ge := by
    have hge := h.peak_ge
    simp only [notePeak, peak_extend, h.tidy.size_extend, h.otherTidy.size_extend, h.size]
    omega
  peak_le := by
    have hle := h.peak_le
    simp only [notePeak, peak_extend, h.tidy.size_extend, h.otherTidy.size_extend, h.size]
    omega

theorem pop (h : stack.Alike other) :
    stack.pop.1 = other.pop.1 ∧ stack.pop.2.Alike other.pop.2 := by
  obtain ⟨hfirst, hrest⟩ := h.tidy.items_pop
  obtain ⟨hfirst', hrest'⟩ := h.otherTidy.items_pop
  obtain ⟨hsegment, hbytes, hmax, hpeak⟩ := stack.settings_pop
  obtain ⟨hsegment', hbytes', hmax', hpeak'⟩ := other.settings_pop
  refine ⟨by rw [hfirst, hfirst', h.items], ?_⟩
  exact {
    tidy := h.tidy.pop
    otherTidy := h.otherTidy.pop
    items := by rw [hrest, hrest', h.items]
    maxSize := by rw [hmax, hmax', h.maxSize]
    segmentSize := by rw [hsegment, hsegment', h.segmentSize]
    itemBytes := by rw [hbytes, hbytes', h.itemBytes]
    peak_ge := by rw [hpeak, hpeak']; exact h.peak_ge
    peak_le := by rw [hpeak, hpeak']; exact h.peak_le }

/-- An entry that is added and removed again leaves at most a trace in the peak. -/
theorem pop_extend (h : stack.Alike other) (entry : StackEntry) :
    (stack.extend entry).notePeak.pop.2.Alike other := by
  have htidy := h.tidy.extend entry
  obtain ⟨hsegment, hbytes, hmax, hpeak⟩ := (stack.extend entry).notePeak.settings_pop
  have hitems : (stack.extend entry).notePeak.pop.2.items = stack.items := by
    rw [htidy.items_pop.2, items_notePeak, h.tidy.items_extend]
    rfl
  have hnewPeak : (stack.extend entry).notePeak.peak = max stack.peak (stack.size + 1) := by
    simp only [notePeak, peak_extend, h.tidy.size_extend]
  have hsize := h.otherTidy.size_le_peak
  have hge := h.peak_ge
  have hle := h.peak_le
  rw [← h.size] at hsize
  exact {
    tidy := htidy.pop
    otherTidy := h.otherTidy
    items := hitems.trans h.items
    maxSize := hmax.trans ((maxSize_extend _ _).trans h.maxSize)
    segmentSize := hsegment.trans ((segmentSize_extend _ _).trans h.segmentSize)
    itemBytes := hbytes.trans ((itemBytes_extend _ _).trans h.itemBytes)
    peak_ge := by
      rw [hpeak, hnewPeak]
      omega
    peak_le := by
      rw [hpeak, hnewPeak]
      omega }

end SegmentedStack.Alike

/-! Rules for moves that are put together. -/

theorem Same.bind {seen : ω → List Thing} {m n : MarkM ω α} {f f' : α → MarkM ω β}
    {s u : Marking ω} (h : Same seen (m s) (n u))
    (hnext : ∀ a s' u', Marking.Alike seen s' u' → Same seen (f a s') (f' a u')) :
    Same seen ((m >>= f) s) ((n >>= f') u) := by
  change Same seen (EStateM.bind m f s) (EStateM.bind n f' u)
  unfold EStateM.bind
  cases hm : m s with
  | ok a s' =>
    cases hn : n u with
    | ok b u' =>
      rw [hm, hn] at h
      cases h with
      | ok halike => exact hnext a s' u' halike
    | error fault u' =>
      rw [hm, hn] at h
      cases h
  | error fault s' =>
    cases hn : n u with
    | ok b u' =>
      rw [hm, hn] at h
      cases h
    | error fault' u' =>
      rw [hm, hn] at h
      cases h with
      | error => exact .error

theorem Same.exists_ok {seen : ω → List Thing} {r : EStateM.Result Fault (Marking ω) α} {a : α}
    {u : Marking ω} (h : Same seen r (.ok a u)) : ∃ s, r = .ok a s ∧ s.Alike seen u := by
  cases h with
  | ok halike => exact ⟨_, rfl, halike⟩

namespace Faithful

variable {seen : ω → List Thing} {m : MarkM ω α} {f : α → MarkM ω β}

theorem bind (h : Faithful seen m) (hnext : ∀ a, Faithful seen (f a)) :
    Faithful seen (m >>= f) :=
  fun _ _ halike => (h halike).bind fun a _ _ halike' => hnext a halike'

theorem pure (a : α) : Faithful seen (pure a : MarkM ω α) :=
  fun _ _ halike => .ok halike

theorem throw (fault : Fault) : Faithful seen (throw fault : MarkM ω α) :=
  fun _ _ _ => .error

theorem need (found : Option α) : Faithful seen (MarkPhase.need found : MarkM ω α) := by
  cases found with
  | none => exact throw .outOfBounds
  | some a => exact pure a

theorem ite {c : Prop} [Decidable c] {n : MarkM ω α} (hthen : Faithful seen m)
    (helse : Faithful seen n) : Faithful seen (if c then m else n) := by
  by_cases h : c
  · rwa [if_pos h]
  · rwa [if_neg h]

/-- A move may depend on the state as far as states that look alike agree. -/
theorem get {g : Marking ω → MarkM ω α} (hsame : ∀ s u, Marking.Alike seen s u → g s = g u)
    (h : ∀ s, Faithful seen (g s)) : Faithful seen (get >>= g) := by
  intro s u halike
  change Same seen (g s s) (g u u)
  rw [hsame s u halike]
  exact h u halike

theorem modify {change : Marking ω → Marking ω}
    (h : ∀ s u, Marking.Alike seen s u → (change s).Alike seen (change u)) :
    Faithful seen (modify change : MarkM ω PUnit) :=
  fun s u halike => .ok (h s u halike)

theorem modifyGet {change : Marking ω → α × Marking ω}
    (h : ∀ s u, Marking.Alike seen s u →
      (change s).1 = (change u).1 ∧ (change s).2.Alike seen (change u).2) :
    Faithful seen (modifyGet change : MarkM ω α) := by
  intro s u halike
  obtain ⟨hanswer, hnext⟩ := h s u halike
  change Same seen (.ok (change s).1 (change s).2) (.ok (change u).1 (change u).2)
  rw [hanswer]
  exact .ok hnext

end Faithful

/-! Elementary moves. -/

namespace MarkM

variable {seen : ω → List Thing}

theorem faithful_record (entry : Record) : Faithful seen (record entry : MarkM ω Unit) :=
  .modify fun _ _ halike => { halike with }

theorem faithful_setLabel (label : Label) : Faithful seen (setLabel label : MarkM ω Unit) :=
  .modify fun _ _ halike => { halike with context := by rw [halike.context] }

theorem faithful_color : Faithful seen (color : MarkM ω Color) :=
  .get (fun _ _ halike => by rw [halike.color]) fun _ => .pure _

theorem faithful_claim (g : Graph) (thing : Thing) (color : Color) :
    Faithful seen (claim g thing color : MarkM ω Bool) := by
  refine .bind (.need _) fun compartment => .get (fun s u halike => ?_) fun s => ?_
  · rw [halike.context]
  · refine .ite (.modifyGet fun s u halike => ?_) (.pure _)
    rw [halike.marks]
    by_cases hmarked : u.marks.isMarked thing = true
    · rw [if_pos hmarked, if_pos hmarked]
      exact ⟨rfl, halike⟩
    · rw [if_neg hmarked, if_neg hmarked]
      exact ⟨rfl, { halike with marks := rfl }⟩

theorem faithful_noteScan (thing : Thing) : Faithful seen (noteScan thing : MarkM ω Unit) := by
  refine .modify fun s u halike => ?_
  have hwatcher : Option.Rel (Watcher.Alike seen)
      (s.watcher.map fun watcher => watcher.hear (.scanned thing))
      (u.watcher.map fun watcher => watcher.hear (.scanned thing)) := by
    rcases Watcher.rel_cases halike.watcher with ⟨hs, hu⟩ | ⟨watcher, other, hs, hu, h⟩
    · rw [hs, hu]
      exact .none
    · rw [hs, hu]
      refine .some ⟨h.scribe, h.observer, ?_⟩
      simp only [Watcher.hear, h.scribe.told, h.memory, ← h.observer]
  exact { halike with
    scanned := by rw [halike.scanned]
    watcher := hwatcher }

/-- Nothing is refused, and a state in which somebody has been asked looks as before. -/
theorem yields_isRefused {s u : Marking ω} (halike : s.Alike seen u) (entry : StackEntry)
    {faults : Fault → Marking ω → Prop} :
    Yields (isRefused entry) s (fun refused s' => refused = false ∧ s'.Alike seen u) faults := by
  unfold isRefused
  rw [yields_modifyGet]
  rcases Watcher.rel_cases halike.watcher with ⟨hs, -⟩ | ⟨watcher, other, hs, hu, h⟩
  · rw [hs]
    exact ⟨rfl, halike⟩
  · rw [hs]
    refine ⟨h.scribe.never entry watcher.memory, { halike with watcher := ?_ }⟩
    rw [hu]
    exact .some ⟨h.scribe, h.observer, (h.scribe.asked entry _).trans h.memory⟩

theorem faithful_isRefused (entry : StackEntry) :
    Faithful seen (isRefused entry : MarkM ω Bool) := by
  refine .modifyGet fun s u halike => ?_
  rcases Watcher.rel_cases halike.watcher with ⟨hs, hu⟩ | ⟨watcher, other, hs, hu, h⟩
  · simp only [hs, hu]
    exact ⟨trivial, halike⟩
  · simp only [hs, hu, ← h.observer, h.scribe.never]
    refine ⟨trivial, { halike with watcher := .some ⟨h.scribe, rfl, ?_⟩ }⟩
    simp only [h.scribe.asked, h.memory]

theorem faithful_delay (entry : StackEntry) : Faithful seen (delay entry : MarkM ω Unit) := by
  refine .get (fun s u halike => by rw [halike.marks]) fun s => ?_
  refine .ite (.bind (.modifyGet ?_) ?_) (.throw _)
  · intro s u halike
    rw [halike.delayed]
    exact ⟨rfl, { halike with delayed := rfl }⟩
  · intro added
    refine .ite (.bind (.modify fun s u halike => ?_) fun _ => faithful_record _) (.pure _)
    exact { halike with delays := by rw [halike.delays] }

theorem faithful_pushEntry (entry : StackEntry) :
    Faithful seen (pushEntry entry : MarkM ω Unit) := by
  refine .bind (faithful_isRefused entry) fun refused => .ite (faithful_delay entry) ?_
  refine .get (fun s u halike => by rw [halike.stack.admits]) fun s => ?_
  split
  · exact .modify fun s u halike => { halike with stack := halike.stack.extend entry }
  · exact faithful_delay entry
  · exact .throw _

theorem faithful_popEntry : Faithful seen (popEntry : MarkM ω (Option StackEntry)) := by
  refine .modifyGet fun s u halike => ?_
  obtain ⟨hanswer, hstack⟩ := halike.stack.pop
  exact ⟨hanswer, { halike with stack := hstack }⟩

/-- Every move that is put together from elementary moves is faithful. -/
theorem inherited_faithful (g : Graph) :
    Inherited g (fun _ => True) (fun m : MarkM ω _ => Faithful seen m) where
  pure := .pure
  throw := .throw
  bind := .bind
  claim id _ := .bind faithful_color fun _ => faithful_claim g id.thing _
  claimString id := faithful_claim g id.thing _
  script id hfollow := .bind faithful_color fun _ => .bind (faithful_claim g id.thing _) fun _ =>
    .ite (.bind (faithful_noteScan _) fun _ => hfollow _ fun _ _ => trivial) (.pure _)
  shade id := by
    refine .bind faithful_color fun color => .modify fun s u halike => ?_
    rw [halike.marks]
    split
    · exact halike
    · exact { halike with marks := rfl }
  noteScan := faithful_noteScan
  setLabel := faithful_setLabel
  keepFilename name _ :=
    .modify fun s u halike => { halike with filenames := by rw [halike.filenames] }
  pushEntry := faithful_pushEntry
  popEntry := faithful_popEntry
  depth := .get (fun s u halike => by rw [halike.stack.size]) fun _ => .pure _
  filter := .get (fun s u halike => by rw [halike.context]) fun _ => .pure _

end MarkM

end MarkPhase
