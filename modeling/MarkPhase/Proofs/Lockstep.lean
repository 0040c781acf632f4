import MarkPhase.Proofs.Growth
import MarkPhase.Proofs.Pairs
import MarkPhase.Proofs.Segments

/-!
Two runs of a marker in lockstep. The states of the two agree on everything but the bounds
of their stacks, how these are cut into segments, the label at hand and the journal. They
do the same until one of the stacks refuses an entry that the other takes. From then on
that run has delayed something, and the other has been deeper than the bound of the first.
-/

namespace MarkPhase

variable {ω α β : Type}

/-- Stacks with the same contents and the same peak, each below a bound of its own. Something
is on them only where segments fit memory. -/
structure SegmentedStack.Level (stack other : SegmentedStack StackEntry) : Prop where
  tidy : stack.Tidy
  otherTidy : other.Tidy
  items : stack.items = other.items
  peak : stack.peak = other.peak
  segmentSize : stack.segmentSize = other.segmentSize
  itemBytes : stack.itemBytes = other.itemBytes
  roomy : stack.items ≠ [] → fitsMemory stack.segmentSize stack.itemBytes = true
  bounded : 0 < stack.maxSize
  otherBounded : 0 < other.maxSize

namespace SegmentedStack.Level

variable {stack other : SegmentedStack StackEntry}

theorem symm (h : stack.Level other) : other.Level stack where
  tidy := h.otherTidy
  otherTidy := h.tidy
  items := h.items.symm
  peak := h.peak.symm
  segmentSize := h.segmentSize.symm
  itemBytes := h.itemBytes.symm
  roomy := by
    rw [← h.items, ← h.segmentSize, ← h.itemBytes]
    exact h.roomy
  bounded := h.otherBounded
  otherBounded := h.bounded

theorem size (h : stack.Level other) : stack.size = other.size := by
  rw [h.tidy.size_eq, h.otherTidy.size_eq, h.items]

theorem isEmpty (h : stack.Level other) : stack.isEmpty = other.isEmpty := by
  rw [Bool.eq_iff_iff, h.tidy.isEmpty_iff, h.otherTidy.isEmpty_iff, h.items]

theorem fits (h : stack.Level other) : fitsMemory stack.segmentSize stack.itemBytes =
    fitsMemory other.segmentSize other.itemBytes := by
  rw [h.segmentSize, h.itemBytes]

/-- A stack at its bound holds something. -/
theorem fits_of_isFull (h : stack.Level other) (hfull : other.isFull = true) :
    fitsMemory stack.segmentSize stack.itemBytes = true := by
  have hbound : other.maxSize ≤ other.size := of_decide_eq_true hfull
  have hpos := h.otherBounded
  refine h.roomy fun hitems => ?_
  rw [← h.size, h.tidy.size_eq, hitems, List.length_nil] at hbound
  omega

theorem extend (h : stack.Level other) (entry : StackEntry)
    (hfits : fitsMemory stack.segmentSize stack.itemBytes = true) :
    (stack.extend entry).notePeak.Level (other.extend entry).notePeak where
  tidy := h.tidy.extend entry
  otherTidy := h.otherTidy.extend entry
  items := by
    rw [items_notePeak, items_notePeak, h.tidy.items_extend, h.otherTidy.items_extend, h.items]
  peak := by
    simp only [notePeak, peak_extend, h.tidy.size_extend, h.otherTidy.size_extend, h.size, h.peak]
  segmentSize := (segmentSize_extend _ _).trans (h.segmentSize.trans (segmentSize_extend _ _).symm)
  itemBytes := (itemBytes_extend _ _).trans (h.itemBytes.trans (itemBytes_extend _ _).symm)
  roomy _ := by
    simp only [notePeak, segmentSize_extend, itemBytes_extend]
    exact hfits
  bounded := (maxSize_extend stack entry).symm ▸ h.bounded
  otherBounded := (maxSize_extend other entry).symm ▸ h.otherBounded

theorem pop (h : stack.Level other) :
    stack.pop.1 = other.pop.1 ∧ stack.pop.2.Level other.pop.2 := by
  obtain ⟨hfirst, hrest⟩ := h.tidy.items_pop
  obtain ⟨hfirst', hrest'⟩ := h.otherTidy.items_pop
  obtain ⟨hsegment, hbytes, hmax, hpeak⟩ := stack.settings_pop
  obtain ⟨hsegment', hbytes', hmax', hpeak'⟩ := other.settings_pop
  refine ⟨by rw [hfirst, hfirst', h.items], ?_⟩
  exact {
    tidy := h.tidy.pop
    otherTidy := h.otherTidy.pop
    items := by rw [hrest, hrest', h.items]
    peak := by rw [hpeak, hpeak', h.peak]
    segmentSize := by rw [hsegment, hsegment', h.segmentSize]
    itemBytes := by rw [hbytes, hbytes', h.itemBytes]
    roomy := fun hne => by
      rw [hsegment, hbytes]
      refine h.roomy fun hitems => hne ?_
      rw [hrest, hitems]
      rfl
    bounded := hmax.symm ▸ h.bounded
    otherBounded := hmax'.symm ▸ h.otherBounded }

end SegmentedStack.Level

/-- The states agree on all that has an influence on what a marker does next, but for the
bounds of their stacks. Where nothing was ever delayed, nothing waits. -/
structure Marking.InStep (s u : Marking ω) : Prop where
  marks : s.marks = u.marks
  filenames : s.filenames = u.filenames
  filter : s.context.compartment = u.context.compartment
  color : s.color = u.color
  stack : s.stack.Level u.stack
  delayed : s.delayed = u.delayed
  scanned : s.scanned = u.scanned
  delays : s.delays = u.delays
  slices : s.slices = u.slices
  watcher : s.watcher = u.watcher
  settled : s.delays = 0 → s.delayed = {}

/-- What the run that led to `t` has done, and what it has left to do, is the same as for `s`:
the same scans were announced and the same entries shown to the observer. -/
structure Marking.Repeats (t s : Marking ω) : Prop where
  marks : t.marks = s.marks
  filenames : t.filenames = s.filenames
  watcher : t.watcher = s.watcher
  statistics : t.statistics = s.statistics
  items : t.stack.items = s.stack.items
  delayed : t.delayed = s.delayed

namespace Marking.InStep

variable {s u : Marking ω}

theorem symm (h : s.InStep u) : u.InStep s where
  marks := h.marks.symm
  filenames := h.filenames.symm
  filter := h.filter.symm
  color := h.color.symm
  stack := h.stack.symm
  delayed := h.delayed.symm
  scanned := h.scanned.symm
  delays := h.delays.symm
  slices := h.slices.symm
  watcher := h.watcher.symm
  settled := by
    rw [← h.delayed, ← h.delays]
    exact h.settled

theorem statistics (h : s.InStep u) : s.statistics = u.statistics := by
  simp only [Marker.statistics, h.scanned, h.delays, h.stack.peak, h.slices]

theorem repeats (h : s.InStep u) : s.Repeats u :=
  ⟨h.marks, h.filenames, h.watcher, h.statistics, h.stack.items, h.delayed⟩

end Marking.InStep

namespace MarkM

open Marking (InStep Develops)

/-- What a state is like when the owner of a refused entry has been delayed. -/
def delaying (entry : StackEntry) (s : Marking ω) : Marking ω :=
  if s.delayed.contains entry.owner then s
  else
    { s with
      delayed := (s.delayed.add entry.owner).2
      delays := s.delays + 1
      journal := s.journal.push (.delayedOwner entry) }

theorem delay_eq (entry : StackEntry) (s : Marking ω) :
    delay entry s =
      if s.marks.isMarked entry.owner then .ok () (delaying entry s)
      else .error (.delayedUnmarked entry.owner) s := by
  unfold delay delaying
  change (if s.marks.isMarked entry.owner then _ else _ : MarkM ω Unit) s = _
  split
  · change (if (s.delayed.add entry.owner).1 then _ else _ : MarkM ω Unit)
      { s with delayed := (s.delayed.add entry.owner).2 } = _
    by_cases hold : s.delayed.contains entry.owner = true
    · simp only [DelayedList.add, hold, if_true]
      rfl
    · simp only [DelayedList.add, if_neg hold, if_true]
      rfl
  · rfl

/-- The move keeps two runs in step. -/
def Steady (m : MarkM ω α) : Prop :=
  Coupled InStep (fun _ => True) m m

theorem steady_claim (g : Graph) (thing : Thing) (color : Color) :
    Steady (claim g thing color : MarkM ω Bool) := by
  refine .bind (.need _) fun compartment _ => .get fun s u h => ?_
  have hallows : s.context.allows compartment = u.context.allows compartment := by
    simp only [Context.allows, h.filter]
  rw [hallows]
  refine .ite (fun _ => .modifyGet fun s u h => ?_) fun _ => .pure trivial
  rw [h.marks]
  by_cases hmarked : u.marks.isMarked thing = true
  · rw [if_pos hmarked, if_pos hmarked]
    exact ⟨rfl, trivial, h⟩
  · rw [if_neg hmarked, if_neg hmarked]
    exact ⟨rfl, trivial, { h with marks := rfl }⟩

theorem steady_color : Steady (color : MarkM ω Color) :=
  .get fun s u h => by
    rw [h.color]
    exact .pure trivial

theorem steady_noteScan (thing : Thing) : Steady (noteScan thing : MarkM ω Unit) :=
  .modify fun s u h => { h with
    scanned := by rw [h.scanned]
    watcher := by rw [h.watcher] }

theorem steady_isRefused (entry : StackEntry) : Steady (isRefused entry : MarkM ω Bool) := by
  refine .modifyGet fun s u h => ?_
  rw [h.watcher]
  cases u.watcher with
  | none => exact ⟨rfl, trivial, h⟩
  | some watcher => exact ⟨rfl, trivial, { h with watcher := rfl }⟩

theorem steady_delay (entry : StackEntry) : Steady (delay entry : MarkM ω Unit) := by
  intro s u h
  rw [delay_eq, delay_eq, h.marks]
  split
  · refine .ok trivial ?_
    unfold delaying
    rw [h.delayed]
    split
    · exact h
    · exact { h with
        delayed := rfl
        delays := by rw [h.delays]
        settled := fun hzero => by cases hzero }
  · exact .error h

theorem steady_popEntry : Steady (popEntry : MarkM ω (Option StackEntry)) := by
  refine .modifyGet fun s u h => ?_
  obtain ⟨hanswer, hstack⟩ := h.stack.pop
  exact ⟨hanswer, trivial, { h with stack := hstack }⟩

/-- The move parts two runs: the one from `u` delays something, and the one from `s` comes to
be deeper than the other is allowed to be. -/
structure Outgrows (m : MarkM ω α) (s u : Marking ω) : Prop where
  fits : fitsMemory u.stack.segmentSize u.stack.itemBytes = true
  deeper : Yields m s (fun _ t => u.stack.maxSize < t.stack.peak)
    fun _ t => u.stack.maxSize < t.stack.peak
  delaying : Yields m u (fun _ t => 0 < t.delays) fun _ _ => True

/-- Two runs of one move are in step, or part. -/
inductive Lockstep (m : MarkM ω α) (s u : Marking ω) : Prop
  | together (hmatched : Matched InStep (fun _ => True) (m s) (m u))
  | first (hparted : Outgrows m s u)
  | second (hparted : Outgrows m u s)

/-- From states in step the move stays in lockstep, and it develops whatever it is made from. -/
structure Abreast (m : MarkM ω α) : Prop where
  lockstep : ∀ ⦃s u : Marking ω⦄, s.InStep u → Lockstep m s u
  develops : Respects Develops m

theorem Outgrows.bind {m : MarkM ω α} {f : α → MarkM ω β} {s u : Marking ω}
    (h : Outgrows m s u) (hf : ∀ a, Respects Develops (f a)) : Outgrows (m >>= f) s u where
  fits := h.fits
  deeper := by
    rw [yields_bind]
    refine h.deeper.imp fun a t hdeep => ?_
    exact (hf a t).mono (fun _ _ hdevelops => hdeep.trans_le hdevelops.peak)
      fun _ _ hdevelops => hdeep.trans_le hdevelops.peak
  delaying := by
    rw [yields_bind]
    refine h.delaying.imp fun a t hpos => ?_
    exact (hf a t).mono (fun _ _ hdevelops => hpos.trans_le hdevelops.delays) fun _ _ _ => trivial

/-- Runs that part later on part as well when they are looked at from here. -/
theorem Outgrows.head {m : MarkM ω α} {f : α → MarkM ω β} {s s' u u' : Marking ω} {a : α}
    (h : Outgrows (f a) s' u') (hs : m s = .ok a s') (hu : m u = .ok a u')
    (hm : Respects Develops m) : Outgrows (m >>= f) s u := by
  have hdevelops : u.Develops u' := (hm u).of_ok hu
  refine ⟨?_, ?_, ?_⟩
  · rw [← hdevelops.segmentSize, ← hdevelops.itemBytes]
    exact h.fits
  · rw [yields_bind, yields_of_eq_ok hs, ← hdevelops.maxSize]
    exact h.deeper
  · rw [yields_bind, yields_of_eq_ok hu]
    exact h.delaying

theorem Steady.abreast {m : MarkM ω α} (h : Steady m) (hdevelops : Respects Develops m) :
    Abreast m :=
  ⟨fun _ _ hstep => .together (h hstep), hdevelops⟩

theorem Abreast.bind {m : MarkM ω α} {f : α → MarkM ω β} (hm : Abreast m)
    (hf : ∀ a, Abreast (f a)) : Abreast (m >>= f) where
  develops := .bind hm.develops fun a => (hf a).develops
  lockstep := by
    intro s u hstep
    cases hm.lockstep hstep with
    | first hparted => exact .first (hparted.bind fun a => (hf a).develops)
    | second hparted => exact .second (hparted.bind fun a => (hf a).develops)
    | together hmatched =>
      obtain ⟨a, s', u', hs, hu, -, hstep'⟩ | ⟨fault, s', u', hs, hu, hstep'⟩ :=
        hmatched.cases_ends
      · cases (hf a).lockstep hstep' with
        | first hparted => exact .first (hparted.head hs hu hm.develops)
        | second hparted => exact .second (hparted.head hu hs hm.develops)
        | together hnext =>
          have hs' : (m >>= f) s = f a s' := by
            change EStateM.bind m f s = _
            simp only [EStateM.bind, hs]
          have hu' : (m >>= f) u = f a u' := by
            change EStateM.bind m f u = _
            simp only [EStateM.bind, hu]
          exact .together (hs' ▸ hu' ▸ hnext)
      · have hs' : (m >>= f) s = .error fault s' := by
          change EStateM.bind m f s = _
          simp only [EStateM.bind, hs]
        have hu' : (m >>= f) u = .error fault u' := by
          change EStateM.bind m f u = _
          simp only [EStateM.bind, hu]
        exact .together (hs' ▸ hu' ▸ .error hstep')

/-! An entry for the stack. -/

/-- What becomes of an entry that the observer lets pass. -/
def place (entry : StackEntry) : MarkM ω Unit := do
  match (← get).stack.admits with
  | .ok true => modify fun s => { s with stack := (s.stack.extend entry).notePeak }
  | .ok false => delay entry
  | .error fault => throw fault

theorem place_eq (entry : StackEntry) (s : Marking ω) :
    place entry s =
      match s.stack.admits with
      | .ok true => .ok () { s with stack := (s.stack.extend entry).notePeak }
      | .ok false => delay entry s
      | .error fault => .error fault s := by
  change (match s.stack.admits with | .ok true => _ | .ok false => _ | .error _ => _
    : MarkM ω Unit) s = _
  cases s.stack.admits with
  | error fault => rfl
  | ok takes => cases takes <;> rfl

theorem delays_delaying_pos {s : Marking ω} (hsettled : s.delays = 0 → s.delayed = {})
    (entry : StackEntry) : 0 < (delaying entry s).delays := by
  unfold delaying
  split
  · rename_i hwaits
    -- Whatever waits has been delayed once.
    refine Nat.pos_of_ne_zero fun hzero => ?_
    rw [hsettled hzero] at hwaits
    cases hwaits
  · exact Nat.succ_pos _

/-- A stack at its bound refuses what the other one takes. -/
theorem outgrows_place {s u : Marking ω} (h : s.InStep u) (entry : StackEntry)
    (hroom : s.stack.isFull = false) (hfull : u.stack.isFull = true) :
    Outgrows (place entry) s u := by
  have hfits := h.stack.fits_of_isFull hfull
  have hbelow : s.stack.size < s.stack.maxSize := Nat.lt_of_not_le (of_decide_eq_false hroom)
  have hadmits : s.stack.admits = .ok true :=
    SegmentedStack.admits_eq_true_iff.mpr ⟨hbelow, hfits⟩
  have hrefuses : u.stack.admits = .ok false := by
    simp [SegmentedStack.admits, hfull]
  have hbound : u.stack.maxSize ≤ u.stack.size := of_decide_eq_true hfull
  refine ⟨h.stack.fits ▸ hfits, ?_, ?_⟩
  · unfold Yields
    rw [place_eq, hadmits]
    change u.stack.maxSize < (s.stack.extend entry).notePeak.peak
    rw [← h.stack.size] at hbound
    simp only [SegmentedStack.notePeak, h.stack.tidy.size_extend]
    omega
  · unfold Yields
    rw [place_eq, hrefuses, delay_eq]
    by_cases hmarked : u.marks.isMarked entry.owner = true
    · rw [if_pos hmarked]
      exact delays_delaying_pos h.symm.settled entry
    · rw [if_neg hmarked]
      trivial

/-- Stacks that are both at their bounds, or both below, do the same. -/
theorem matched_place {s u : Marking ω} (h : s.InStep u) (entry : StackEntry)
    (hfull : s.stack.isFull = u.stack.isFull) :
    Matched InStep (fun _ => True) (place entry s) (place entry u) := by
  have hadmits : u.stack.admits = s.stack.admits := by
    unfold SegmentedStack.admits
    rw [hfull, h.stack.segmentSize, h.stack.itemBytes]
  rw [place_eq, place_eq, hadmits]
  split
  · rename_i htakes
    have hfits := (SegmentedStack.admits_eq_true_iff.mp htakes).2
    exact .ok trivial { h with stack := h.stack.extend entry hfits }
  · exact steady_delay entry h
  · exact .error h

theorem abreast_place (entry : StackEntry) : Abreast (place entry : MarkM ω Unit) where
  develops s := by
    rw [place, yields_bind, yields_get]
    split
    · rename_i hadmits
      exact .extend hadmits entry
    · exact Marking.admits_develops.delay entry s
    · exact refl_of Develops s
  lockstep := by
    intro s u h
    cases hs : s.stack.isFull <;> cases hu : u.stack.isFull
    · exact .together (matched_place h entry (hs.trans hu.symm))
    · exact .first (outgrows_place h entry hs hu)
    · exact .second (outgrows_place h.symm entry hu hs)
    · exact .together (matched_place h entry (hs.trans hu.symm))

theorem abreast_pushEntry (entry : StackEntry) : Abreast (pushEntry entry : MarkM ω Unit) := by
  refine ((steady_isRefused entry).abreast (Marking.admits_develops.isRefused entry)).bind
    fun refused => ?_
  cases refused with
  | true => exact (steady_delay entry).abreast (Marking.admits_develops.delay entry)
  | false => exact abreast_place entry

/-- Within a unit of work two runs in step stay in lockstep. -/
theorem inherited_abreast (g : Graph) :
    Inherited g (fun _ => True) (fun m : MarkM ω _ => Abreast m) where
  pure a := Steady.abreast (.pure trivial) (.pure a)
  throw fault := Steady.abreast (.throw fault) (.throw fault)
  bind := .bind
  claim id hkind := Steady.abreast (.bind steady_color fun _ _ => steady_claim g id.thing _)
    ((lasting_develops g).claim id hkind)
  claimString id := (steady_claim g id.thing _).abreast (develops_claim g id.thing _)
  script id hfollow := by
    refine .bind (steady_color.abreast (.bind .get fun _ => .pure _)) fun _ =>
      .bind ((steady_claim g id.thing _).abreast (develops_claim g id.thing _)) fun claimed => ?_
    cases claimed with
    | false => exact Steady.abreast (.pure trivial) (.pure _)
    | true =>
      exact .bind ((steady_noteScan _).abreast ((lasting_develops g).noteScan _)) fun _ =>
        hfollow _ fun _ _ => trivial
  shade id := Steady.abreast (.bind steady_color fun color _ => .modify fun s u h => by
    rw [h.marks]
    split
    · exact h
    · exact { h with marks := rfl }) ((lasting_develops g).shade id)
  noteScan thing := (steady_noteScan thing).abreast ((lasting_develops g).noteScan thing)
  setLabel label := Steady.abreast (.modify fun s u h => { h with filter := h.filter })
    ((lasting_develops g).setLabel label)
  keepFilename name _ := Steady.abreast
    (.modify fun s u h => { h with filenames := by rw [h.filenames] })
    ((lasting_develops g).keepFilename name trivial)
  pushEntry := abreast_pushEntry
  popEntry := steady_popEntry.abreast (lasting_develops g).popEntry
  depth := Steady.abreast (.get fun s u h => by
    rw [h.stack.size]
    exact .pure trivial) (lasting_develops g).depth
  filter := Steady.abreast (.get fun s u h => by
    rw [h.filter]
    exact .pure trivial) (lasting_develops g).filter

theorem abreast_record (entry : Record) : Abreast (record entry : MarkM ω Unit) :=
  Steady.abreast (.modify fun _ _ h => { h with }) (Marking.admits_develops.record entry)

theorem abreast_popDelayed : Abreast (modifyGet fun s =>
    (s.delayed.pop.1, { s with delayed := s.delayed.pop.2 }) : MarkM ω (Option Thing)) :=
  Steady.abreast (.modifyGet fun s u h => by
    rw [h.delayed]
    exact ⟨rfl, trivial, { h with
      delayed := rfl
      settled := fun hzero => by
        rw [← h.delayed, h.settled hzero]
        rfl }⟩) Marking.admits_develops.popDelayed

/-- Whatever a marker does, two runs in step stay in lockstep. -/
theorem lasting_abreast (g : Graph) : Lasting g (fun m : MarkM ω _ => Abreast m) where
  toInherited := inherited_abreast g
  record := abreast_record
  resumeDelayed := (inherited_abreast g).resumeDelayed abreast_record abreast_popDelayed
  countSlice := Steady.abreast (.modify fun s u h => { h with slices := by rw [h.slices] })
    (lasting_develops g).countSlice
  agenda := Steady.abreast (.get fun s u h => by
    rw [Marker.agenda, Marker.agenda, h.stack.isEmpty, h.stack.size, h.delayed, h.statistics]
    exact .pure trivial) (lasting_develops g).agenda

/-- A run that stays within its own bound does not outgrow one with the same bound. -/
theorem not_outgrows {m : MarkM ω α} (hm : Respects Develops m) {s u : Marking ω}
    (htidy : s.stack.Tidy) (hpeak : s.stack.peak ≤ s.stack.maxSize)
    (hbound : s.stack.maxSize = u.stack.maxSize) : ¬ Outgrows m s u := by
  intro hparted
  have hwithin : ∀ {t : Marking ω}, s.Develops t → ¬ u.stack.maxSize < t.stack.peak := by
    intro t hdevelops hdeep
    have hle := hdevelops.peak_le htidy hpeak
    rw [hdevelops.maxSize, hbound] at hle
    omega
  cases hend : m s with
  | ok a t => exact hwithin ((hm s).of_ok hend) (hparted.deeper.of_ok hend)
  | error fault t => exact hwithin ((hm s).of_error hend) (hparted.deeper.of_error hend)

/-- Runs with the same bound never part. -/
theorem Abreast.matched {m : MarkM ω α} (h : Abreast m) {s u : Marking ω} (hstep : s.InStep u)
    (hpeak : s.stack.peak ≤ s.stack.maxSize) (hbound : s.stack.maxSize = u.stack.maxSize) :
    Matched InStep (fun _ => True) (m s) (m u) := by
  have hpeak' : u.stack.peak ≤ u.stack.maxSize := by
    rw [← hstep.stack.peak, ← hbound]
    exact hpeak
  cases h.lockstep hstep with
  | together hmatched => exact hmatched
  | first hparted => exact absurd hparted (not_outgrows h.develops hstep.stack.tidy hpeak hbound)
  | second hparted =>
    exact absurd hparted (not_outgrows h.develops hstep.stack.otherTidy hpeak' hbound.symm)

end MarkM

end MarkPhase
