import MarkPhase.Proofs.Bounds
import MarkPhase.Proofs.Budgets
import MarkPhase.Proofs.Chains
import MarkPhase.Proofs.Dangling

/-!
What the marking of a chain leaves on the stack. Between two units of work there is the entry
of the type object, if anything, and on top of it one entry at most: the object that the
chain begins with, or the overflow of an object that has been opened. An object that has been
found is scanned in place, and then the entry of its owner has gone.
-/

namespace MarkPhase

variable {ω : Type}

namespace Marking

/-- Nothing has been delayed, and there have never been more than two entries at a time. -/
structure Slim (s : Marking ω) : Prop where
  tidy : s.stack.Tidy
  roomy : 2 ≤ s.stack.maxSize
  peak : s.stack.peak ≤ 2
  delayed : s.delayed.things = []
  delays : s.delays = 0
  gentle : s.Gentle

/-- The entries lie on the stack, on top of that of the type object if there is one. -/
structure Stands (type : TypeObjectId) (above : List StackEntry) (s : Marking ω) : Prop
    extends s.Slim where
  items : s.stack.items = above ∨
    s.stack.items = above ++ [.typeObject type] ∧ s.marks.isMarked type.thing = true

variable {s t : Marking ω} {type : TypeObjectId} {above : List StackEntry}

theorem Slim.of_still (h : s.Slim) (hstill : s.Still t) : t.Slim where
  tidy := hstill.stack ▸ h.tidy
  roomy := hstill.stack ▸ h.roomy
  peak := hstill.stack ▸ h.peak
  delayed := hstill.delayed ▸ h.delayed
  delays := hstill.delays.trans h.delays
  gentle := hstill.gentle h.gentle

theorem Stands.of_still (h : s.Stands type above) (hstill : s.Still t) : t.Stands type above where
  toSlim := h.toSlim.of_still hstill
  items := by
    rw [hstill.stack]
    exact h.items.imp_right fun hgiven => ⟨hgiven.1, hstill.marks _ hgiven.2⟩

/-- A move that leaves the work alone leaves what lies on the stack. -/
theorem Stands.yields {α : Type} {m : MarkM ω α} (hm : Respects Still m)
    (h : s.Stands type above) :
    Yields m s (fun _ t => t.Stands type above) fun _ t => t.Slim :=
  (hm s).mono (fun _ _ => h.of_still) fun _ _ => h.toSlim.of_still

end Marking

namespace MarkM

open Marking

variable {g : Graph} {type : TypeObjectId} {s : Marking ω} {above : List StackEntry}

/-- Nobody refuses an entry, and asking for it changes only what the watcher remembers. -/
private theorem yields_isRefused_of_gentle (hgentle : s.Gentle) (entry : StackEntry)
    (faults : Fault → Marking ω → Prop) :
    Yields (isRefused entry) s (fun refused t => refused = false ∧ s.Still t ∧ t.marks = s.marks)
      faults := by
  unfold isRefused
  rw [yields_modifyGet]
  cases hwatcher : s.watcher with
  | none => exact ⟨rfl, refl_of Still s, rfl⟩
  | some watcher =>
    refine ⟨hgentle watcher hwatcher entry watcher.memory, ?_, rfl⟩
    exact {
      stack := rfl
      delayed := rfl
      delays := rfl
      marks := fun _ hmarked => hmarked
      gentle := fun _ other hother => by
        obtain rfl := Option.some.inj hother
        exact hgentle watcher hwatcher }

/-- A stack with one entry or none takes another. -/
theorem yields_pushEntry_of_slim (h : s.Slim) (hdepth : s.stack.items.length ≤ 1)
    (entry : StackEntry) :
    Yields (pushEntry entry) s (fun _ t => t.Slim ∧ t.stack.items = entry :: s.stack.items ∧
      t.marks = s.marks) fun _ t => t.Slim := by
  rw [pushEntry, yields_bind]
  refine (yields_isRefused_of_gentle h.gentle entry _).imp fun refused t hend => ?_
  obtain ⟨rfl, hstill, hmarks⟩ := hend
  have ht := h.of_still hstill
  rw [← hstill.stack] at hdepth ⊢
  have hsize : t.stack.size ≤ 1 := ht.tidy.size_eq ▸ hdepth
  have hroomy := ht.roomy
  refine yields_ite (fun hfalse => by cases hfalse) fun _ => ?_
  rw [yields_bind, yields_get]
  cases hadmits : t.stack.admits with
  | error fault => exact ht
  | ok admitted =>
    cases admitted with
    | false =>
      rw [SegmentedStack.admits, SegmentedStack.isFull, if_neg (by simp; omega)] at hadmits
      split at hadmits <;> cases hadmits
    | true =>
      have hnew := ht.tidy.size_extend entry
      have hpeak := ht.peak
      refine ⟨⟨ht.tidy.extend entry, ?_, ?_, ht.delayed, ht.delays, ht.gentle⟩,
        ht.tidy.items_extend entry, hmarks⟩
      · change 2 ≤ (t.stack.extend entry).maxSize
        rwa [SegmentedStack.maxSize_extend]
      · change max (t.stack.extend entry).peak (t.stack.extend entry).size ≤ 2
        rw [SegmentedStack.peak_extend]
        omega

theorem yields_pushEntry_of_stands (h : s.Stands type []) (entry : StackEntry) :
    Yields (pushEntry entry) s (fun _ t => t.Stands type [entry]) fun _ t => t.Slim := by
  have hdepth : s.stack.items.length ≤ 1 := by
    rcases h.items with hitems | ⟨hitems, -⟩ <;> simp [hitems]
  refine (yields_pushEntry_of_slim h.toSlim hdepth entry).imp fun _ t hend => ?_
  obtain ⟨ht, hitems, hmarks⟩ := hend
  refine ⟨ht, ?_⟩
  rw [hitems, hmarks]
  exact h.items.imp (congrArg _) fun hgiven => ⟨congrArg _ hgiven.1, hgiven.2⟩

theorem yields_pushRange_of_stands (h : s.Stands type []) {range : ValueRange}
    (hle : range.start ≤ range.stop) (hlt : range.stop < 2 ^ 32) :
    Yields (pushRange range) s
      (fun _ t => t.Stands type (if range.start = range.stop then [] else [.values range]))
      fun _ t => t.Slim := by
  unfold pushRange
  rw [if_neg (Nat.not_lt.mpr hle)]
  refine yields_ite (fun hsome => ?_) fun hnot => ?_
  · rw [if_neg (Nat.ne_of_lt hsome), range.inWords_eq_self hle hlt]
    exact yields_pushEntry_of_stands h _
  · rw [if_pos (by omega)]
    exact h

/-- The type object is put on the stack once, and nothing lies there at that time. -/
theorem yields_pushTypeObject_of_stands (h : s.Stands type []) :
    Yields (pushTypeObject g type) s (fun _ t => t.Stands type []) fun _ t => t.Slim := by
  rw [pushTypeObject, yields_bind]
  refine (h.yields still_color).imp fun color t ht => ?_
  rw [yields_bind]
  refine yields_claim_of g ht (fun _ => ht.toSlim) fun hnew => ?_
  -- Were its entry on the stack, the type object would have been marked.
  have hempty : t.stack.items = [] := ht.items.resolve_right fun hgiven => hnew hgiven.2
  have hslim : ({ t with marks := t.marks.set type.thing (.marked color) } : Marking ω).Slim :=
    { ht with }
  refine (yields_pushEntry_of_slim hslim (by simp [hempty]) _).imp fun _ u hend => ?_
  obtain ⟨hu, hitems, hmarks⟩ := hend
  refine ⟨hu, Or.inr ⟨?_, ?_⟩⟩
  · rw [hitems]
    exact congrArg _ hempty
  · rw [hmarks]
    exact (ThingTable.isMarked_set _ _ _ _).mpr (Or.inl rfl)

/-- What lies on top of the type object is taken from the stack first. -/
theorem yields_popEntry_of_stands (h : s.Stands type above) (faults : Fault → Marking ω → Prop) :
    Yields popEntry s (fun entry t => t.Stands type above.tail ∧
      (entry = above.head? ∨ above = [] ∧ entry = some (.typeObject type))) faults := by
  obtain ⟨hfirst, hrest⟩ := h.tidy.items_pop
  obtain ⟨-, -, hmaximum, hpeak⟩ := s.stack.settings_pop
  rw [popEntry, yields_modifyGet]
  have hslim : ({ s with stack := s.stack.pop.2 } : Marking ω).Slim :=
    ⟨h.tidy.pop, hmaximum ▸ h.roomy, hpeak ▸ h.peak, h.delayed, h.delays, h.gentle⟩
  rcases h.items with hitems | ⟨hitems, hmarked⟩
  · rw [hitems] at hfirst hrest
    exact ⟨⟨hslim, Or.inl hrest⟩, Or.inl hfirst⟩
  · rw [hitems] at hfirst hrest
    cases above with
    | nil => exact ⟨⟨hslim, Or.inl hrest⟩, Or.inr ⟨rfl, hfirst⟩⟩
    | cons entry above => exact ⟨⟨hslim, Or.inr ⟨hrest, hmarked⟩⟩, Or.inl hfirst⟩

end MarkM

/-! Units of work on a chain. -/

/-- What may wait in the middle of a chain, on top of the type object: an object that has just
been found is not on the stack, and otherwise there is one entry at most. -/
inductive Graph.Waits (g : Graph) (type : TypeObjectId) : Option ObjectId → List StackEntry → Prop
  | nothing : g.Waits type none []
  | found {id : ObjectId} : g.Heads type id → g.Waits type (some id) []
  | object {id : ObjectId} : g.Heads type id → g.Waits type none [.object id]
  | overflow {id : ObjectId} {next : Option ObjectId} {object : ObjectCell} :
      g.Link type id next object → (∀ other, next = some other → g.Heads type other) →
      g.Waits type none [.values (object.whole id .dynamic)]

/-- The marker is in the middle of a chain. -/
def Marking.Midway (g : Graph) (type : TypeObjectId) (found : Option ObjectId) (s : Marking ω) :
    Prop :=
  ∃ above, g.Waits type found above ∧ s.Stands type above

theorem Marking.Midway.slim {g : Graph} {type : TypeObjectId} {found : Option ObjectId}
    {s : Marking ω} (h : s.Midway g type found) : s.Slim := by
  obtain ⟨above, -, hstands⟩ := h
  exact hstands.toSlim

namespace MarkM

open Marking

variable {g : Graph} {type : TypeObjectId} {s : Marking ω} {id : ObjectId}
  {next found : Option ObjectId} {object : ObjectCell}

/-- What has been found begins the rest of the chain. -/
private theorem midway_of_found (h : s.Stands type [])
    (hnext : ∀ other, next = some other → g.Heads type other)
    (hfound : found = none ∨ found = next) : s.Midway g type found := by
  cases found with
  | none => exact ⟨[], .nothing, h⟩
  | some other =>
    exact ⟨[], .found (hnext other (hfound.resolve_left nofun).symm), h⟩

/-- The last value of a whole region may be found. -/
private theorem yields_scanRange {region : Region} {above : List StackEntry}
    (hid : g.object? id = some object)
    (hvalues : ∀ index < object.regionSize region, (object.regionValue region index).thing? =
      if index + 1 = object.regionSize region then next.map Ref.thing else none)
    (h : s.Stands type above) :
    Yields (scanRange g (object.whole id region)) s
      (fun found t => t.Stands type above ∧ (found = none ∨ found = next)) fun _ t => t.Slim := by
  have hread : Yields (readValues g id object region (object.regionSize region) 0) s _ _ :=
    yields_readValues _ (fun index _ hlt => by rw [hvalues index (by omega), Nat.zero_add]) s
  rw [scanRange, yields_bind]
  change Yields (need (g.object? id)) s _ _
  rw [hid, yields_need_some]
  refine yields_ite (fun hbeyond => absurd hbeyond (Nat.lt_irrefl _)) fun _ => ?_
  exact hread.mono (fun _ _ hend => ⟨h.of_still hend.1, hend.2⟩) fun _ _ => h.toSlim.of_still

/-- An object is opened by putting aside its overflow, if it is in use. -/
private theorem yields_openObject (hlink : g.Link type id next object) (hstored : object.Stored)
    (h : s.Stands type []) :
    Yields (openObject g id) s (fun range t => range = some (object.whole id .fixed) ∧
      t.Stands type (if object.regionSize .dynamic = 0 then []
        else [.values (object.whole id .dynamic)])) fun _ t => t.Slim := by
  rw [openObject, yields_bind]
  refine (h.yields (still_noteScan id.thing)).imp fun _ s₁ h₁ => ?_
  rw [yields_bind, hlink.cell, yields_need_some, yields_bind, hlink.type]
  refine (yields_pushTypeObject_of_stands h₁).imp fun _ s₂ h₂ => ?_
  rw [yields_bind]
  refine (h₂.yields (still_pushShape hlink.lineage)).imp fun _ s₃ h₃ => ?_
  rw [yields_bind, hlink.plain, yields_need_some, if_neg (by decide), yields_bind]
  change Yields (pure ()) s₃ _ _
  rw [yields_pure, if_neg (by decide)]
  refine yields_ite (fun hsome => ?_) fun hnone => ?_
  · rw [yields_bind]
    have hword : object.regionSize .dynamic < 2 ^ 32 :=
      Nat.lt_of_le_of_lt (object.regionSize_le_span (by decide)) hstored.span_lt
    refine (yields_pushRange_of_stands h₃ (Nat.zero_le _) hword).imp fun _ s₄ h₄ => ⟨rfl, ?_⟩
    simpa only [ObjectCell.whole, eq_comm] using h₄
  · have hempty : object.regionSize .dynamic = 0 := by
      simp only [ObjectCell.regionSize, Option.not_isSome_iff_eq_none.mp hnone]
    rw [if_pos hempty]
    exact ⟨rfl, h₃⟩

/-- A chain goes on with the object that is found, or with the overflow. -/
private theorem yields_scanObject (hsound : g.Sound) (hheads : g.Heads type id)
    (h : s.Stands type []) :
    Yields (scanObject g id) s (fun found t => t.Midway g type found) fun _ t => t.Slim := by
  obtain ⟨next, object, hlink, hnext⟩ := hheads.exists_link
  have hstored : object.Stored := (hsound.object hlink.cell).2
  rw [scanObject, yields_bind]
  refine (yields_openObject hlink hstored h).imp fun range t hend => ?_
  obtain ⟨rfl, ht⟩ := hend
  refine (yields_scanRange hlink.cell (fun _ => hlink.fixed hstored) ht).imp fun found u hend => ?_
  obtain ⟨hu, hfound⟩ := hend
  -- Either the next object lies inline, or the overflow has been put aside and nothing is found.
  by_cases hempty : object.regionSize .dynamic = 0
  · rw [if_pos hempty] at hu hfound
    exact midway_of_found hu hnext hfound
  · rw [if_neg hempty] at hu hfound
    obtain rfl : found = none := (or_self_iff).mp hfound
    exact ⟨_, .overflow hlink hnext, hu⟩

variable (hsound : g.Sound) (hchildless : ∀ child, ¬ g.Child type.thing child)

include hsound hchildless

/-- A unit of work on a chain. -/
theorem yields_advance_of_midway (h : s.Midway g type found) :
    Yields (advance g found) s (fun found t => t.Midway g type found) fun _ t => t.Slim := by
  obtain ⟨above, hwaits, hstands⟩ := h
  have hpop := yields_popEntry_of_stands hstands fun _ t => t.Slim
  cases hwaits with
  | found hheads => exact yields_scanObject hsound hheads hstands
  | nothing =>
    rw [advance, yields_bind]
    refine hpop.imp fun entry t hend => ?_
    obtain ⟨ht, rfl | ⟨-, rfl⟩⟩ := hend
    · exact ⟨[], .nothing, ht⟩
    · change Yields (scanTypeObject g type >>= fun _ => pure none) t _ _
      rw [yields_bind]
      exact (ht.yields (still_scanTypeObject hsound hchildless)).imp fun _ u hu =>
        ⟨[], .nothing, hu⟩
  | object hheads =>
    rw [advance, yields_bind]
    refine hpop.imp fun entry t hend => ?_
    obtain ⟨ht, rfl | ⟨hnil, -⟩⟩ := hend
    · exact yields_scanObject hsound hheads ht
    · cases hnil
  | overflow hlink hnext =>
    rw [advance, yields_bind]
    refine hpop.imp fun entry t hend => ?_
    obtain ⟨ht, rfl | ⟨hnil, -⟩⟩ := hend
    · have hstored := (hsound.object hlink.cell).2
      exact (yields_scanRange hlink.cell (fun _ => hlink.dynamic hstored) ht).imp
        fun found u hend => midway_of_found hend.1 hnext hend.2
    · cases hnil

private theorem yields_drainStack (units : Nat) (h : s.Midway g type found) :
    Yields (drainStack g units found .unlimited) s (fun _ t => t.Slim) fun _ t => t.Slim := by
  induction units generalizing found s with
  | zero => exact h.slim
  | succ units ih =>
    rw [drainStack, yields_bind, yields_get]
    refine yields_ite (fun _ => h.slim) fun _ => ?_
    rw [yields_bind]
    refine (yields_advance_of_midway hsound hchildless h).imp fun next t ht => ?_
    exact yields_ite (fun hover => by cases hover) fun _ => ih ht

/-- Nothing is ever delayed, so there is one round only. -/
private theorem yields_drainRounds (units rounds : Nat) (h : s.Midway g type none) :
    Yields (drainRounds g units rounds .unlimited) s (fun _ t => t.Slim) fun _ t => t.Slim := by
  cases rounds with
  | zero => exact h.slim
  | succ rounds =>
    rw [drainRounds, yields_bind]
    refine (yields_drainStack hsound hchildless units h).imp fun result t ht => ?_
    refine yields_ite (fun _ => ht) fun _ => ?_
    rw [yields_bind, yields_get, if_pos (DelayedList.Tidy.isEmpty_iff.mpr ht.delayed), record,
      yields_bind, yields_modify]
    exact { ht with }

/-- A chain is worked off without anything being delayed. -/
theorem yields_drain_of_midway (h : s.Midway g type none) :
    Yields (drain g .unlimited) s (fun _ t => t.Slim) fun _ t => t.Slim := by
  obtain ⟨above, hwaits, hstands⟩ := h
  rw [drain, yields_bind, yields_modify, workBound, yields_bind, yields_bind, yields_get,
    yields_pure]
  exact yields_drainRounds hsound hchildless _ _ ⟨above, hwaits, { hstands with }⟩

omit hsound hchildless in
/-- A call that reports the head of a chain to an idle marker. -/
theorem yields_make_of_idle (hslim : s.Slim) (hidle : s.stack.items = [])
    (hheads : g.Heads type id) :
    Yields (make g (.unnamed id.thing)) s (fun _ t => t.Midway g type none)
      fun _ t => t.Slim := by
  have hstart : s.Stands type [] := ⟨hslim, Or.inl hidle⟩
  have hpush : Yields (pushObject g id) s (fun _ t => t.Midway g type none) fun _ t => t.Slim := by
    rw [pushObject, yields_bind]
    refine (hstart.yields still_color).imp fun color t ht => ?_
    rw [yields_bind]
    refine (ht.yields (still_claim id.thing color)).imp fun claimed u hu => ?_
    refine yields_ite (fun _ => ?_) fun _ => ⟨[], .nothing, hu⟩
    exact (yields_pushEntry_of_stands hu _).imp fun _ v hv => ⟨_, .object hheads, hv⟩
  rw [make, yields_bind, yields_get]
  change Yields (visit g (pushThing g) (.report id.thing) >>= fun _ => pure ()) s _ _
  rw [yields_bind, visit]
  cases g.objection? id.thing with
  | some fault => exact hslim
  | none =>
    rw [yields_bind]
    refine hpush.imp fun _ t ht => ?_
    obtain ⟨above, hwaits, hstands⟩ := ht
    exact ⟨above, hwaits, { hstands with }⟩

end MarkM

/-! Constant stacks. -/

namespace Launch

variable {L : Launch ω} {t : Marking ω}

/-- No more than two places on the stack were needed, and so nothing was delayed where there
were as many. -/
structure Modest (L : Launch ω) (t : Marking ω) : Prop where
  peak : t.statistics.peakDepth ≤ 2
  delayed : L.configuration.stackLimit ≠ 1 → t.statistics.delayed = 0

theorem slim_start (hgentle : L.Gentle) (hlimit : L.configuration.stackLimit ≠ 1)
    (marks : MarkTable) : (L.startWith marks).Slim := by
  obtain ⟨-, htidy, hmaximum, hdelayed, hdelays⟩ := L.start_idle
  have hpeak : L.start.stack.peak = 0 := congrArg (fun marker => marker.stack.peak) L.marker_eq.2
  refine ⟨htidy, ?_, hpeak.trans_le (Nat.zero_le _), congrArg DelayedList.things hdelayed,
    hdelays, hgentle⟩
  change 2 ≤ L.start.stack.maxSize
  rw [hmaximum, SegmentedStack.boundOf]
  split
  · decide
  · omega

/-- Where there is one place only, no more than one is needed. -/
theorem modest_of_develops (hlimit : L.configuration.stackLimit = 1) {marks : MarkTable}
    (h : (L.startWith marks).Develops t) : L.Modest t := by
  obtain ⟨-, htidy, hmaximum, -⟩ := L.start_idle
  have hpeak : L.start.stack.peak = 0 := congrArg (fun marker => marker.stack.peak) L.marker_eq.2
  have hle := h.peak_le htidy (hpeak.trans_le (Nat.zero_le _))
  have hone : t.stack.maxSize = 1 := by
    rw [h.maxSize]
    refine hmaximum.trans ?_
    rw [hlimit]
    rfl
  exact ⟨hle.trans (hone.trans_le (by decide)), fun hne => absurd hlimit hne⟩

/-- The marking of a chain from its head on. -/
theorem yields_chain (hgentle : L.Gentle) (marks : MarkTable) {type : TypeObjectId}
    {head : ObjectId} (hheads : L.graph.Heads type head)
    (hchildless : ∀ child, ¬ L.graph.Child type.thing child) :
    Yields (MarkM.make L.graph (.unnamed head.thing) >>= fun _ => MarkM.drain L.graph .unlimited)
      (L.startWith marks) (fun _ t => L.Modest t) fun _ t => L.Modest t := by
  by_cases hlimit : L.configuration.stackLimit = 1
  · have hdevelops : Respects Marking.Develops (MarkM.make L.graph (.unnamed head.thing) >>=
        fun _ => MarkM.drain L.graph .unlimited : MarkM ω Bool) :=
      .bind ((MarkM.lasting_develops L.graph).make _) fun _ =>
        (MarkM.lasting_develops L.graph).drain _
    exact (hdevelops (L.startWith marks)).mono (fun _ _ => modest_of_develops hlimit)
      fun _ _ => modest_of_develops hlimit
  · have hmodest : ∀ {t : Marking ω}, t.Slim → L.Modest t := fun ht => ⟨ht.peak, fun _ => ht.delays⟩
    have hslim := slim_start hgentle hlimit marks
    rw [yields_bind]
    refine (MarkM.yields_make_of_idle hslim L.start_idle.1 hheads).mono (fun _ s hs => ?_)
      fun _ _ => hmodest
    exact (MarkM.yields_drain_of_midway L.sound hchildless hs).mono (fun _ _ => hmodest)
      fun _ _ => hmodest

/-- A call that names what is there and an unlimited drain leave nothing, or they want more
memory than there is. -/
theorem Ready.yields_make_drain (h : L.Ready s) {call : MarkingCall}
    (hknown : call.KnownOn L.graph) :
    Yields (MarkM.make L.graph call >>= fun _ => MarkM.drain L.graph .unlimited) s
      (fun done t => done = true ∧ t.isDrained = true)
      fun fault _ => allocationFault? L.configuration.segmentSize entryBytes = some fault := by
  have hcall : (Command.step (.call call)).KnownOn L.graph := hknown
  rw [yields_bind]
  refine (h.yields_make hcall).imp fun _ t ht => ?_
  rw [← MarkM.fst_countDrain, yields_map]
  refine (ht.yields_countDrain .unlimited).imp fun result u hend => ?_
  obtain ⟨hpays, hidle⟩ := hend
  exact ⟨hpays.unlimited rfl, hidle (hpays.unlimited rfl)⟩

end Launch

/-- Chains take a constant amount of stack, however long they are. Where no rope that a string
is made of has two ropes for its parts, the string is marked without the stack, whatever else
the heap refers to; and the marking of objects of which each refers to the next in its last
slot needs two places. -/
theorem constant_stack :
    (∀ (history : List Construction) (id : StringId) (s : Marking ω),
      let g := (Heap.built history).graph
      g.contains id.thing = true → s.stack.Tidy → s.delayed.Tidy → ¬ g.HoldsFork id →
      ∃ c, ChronM.pushString g none id { toMarking := s } = .ok () c ∧
        MarkM.pushString g id s = .ok () c.toMarking ∧ c.Aloof s) ∧
    ∀ (L : Launch ω) (marks : MarkTable) (type : TypeObjectId) (head : ObjectId)
      (rest : List ObjectId), L.Gentle → L.graph.Chain type (head :: rest) →
      (∀ child, ¬ L.graph.Child type.thing child) →
      (∃ s t, MarkM.make L.graph (.unnamed head.thing) (L.startWith marks) = .ok () s ∧
        MarkM.drain L.graph .unlimited s = .ok true t ∧ t.isDrained = true ∧ L.Modest t) ∨
      ∃ fault t, allocationFault? L.configuration.segmentSize entryBytes = some fault ∧
        (MarkM.make L.graph (.unnamed head.thing) >>= fun _ =>
          MarkM.drain L.graph .unlimited) (L.startWith marks) = .error fault t ∧
        L.Modest t := by
  refine ⟨fun history id s hid hstack hdelayed hunforked =>
    (Heap.readable_built history).pushString_of_unforked hid hstack hdelayed hunforked, ?_⟩
  intro L marks type head rest hgentle hchain hchildless
  have hheads : L.graph.Heads type head := ⟨rest, hchain⟩
  have hknown : (MarkingCall.unnamed head.thing).KnownOn L.graph := by
    obtain ⟨_, object, hlink, -⟩ := hheads.exists_link
    intro thing hthing
    obtain rfl := List.mem_singleton.mp hthing
    exact Graph.contains_of_getElem? rfl hlink.cell
  have hyields := ((L.ready_start marks).yields_make_drain hknown).and
    (Launch.yields_chain hgentle marks hheads hchildless)
  cases hrun : (MarkM.make L.graph (.unnamed head.thing) >>= fun _ =>
      MarkM.drain L.graph .unlimited) (L.startWith marks) with
  | ok done t =>
    obtain ⟨⟨rfl, hidle⟩, hmodest⟩ := hyields.of_ok hrun
    obtain ⟨⟨⟩, s, hs, ht⟩ := exists_ok_of_bind hrun
    exact Or.inl ⟨s, t, hs, ht, hidle, hmodest⟩
  | error fault t =>
    obtain ⟨hfault, hmodest⟩ := hyields.of_error hrun
    exact Or.inr ⟨fault, t, hfault, rfl, hmodest⟩

namespace Launch

/-- A rope over a rope, and three objects each of which refers to the next in its last slot. -/
def strung : Launch Unit :=
  { sample 2 (some ⟨.silent, ()⟩) with
    history :=
      [.string .atoms "a", .concat .atoms ⟨0⟩ ⟨0⟩, .concat .atoms ⟨1⟩ ⟨0⟩,
        .baseShape .atoms none none none none, .shape .atoms ⟨0⟩ (.int 3) none,
        .typeObject .atoms [] none none none, .object .atoms ⟨0⟩ ⟨0⟩ 1, .object .atoms ⟨0⟩ ⟨0⟩ 1,
        .object .atoms ⟨0⟩ ⟨0⟩ 0, .slot ⟨0⟩ 1 (.object ⟨1⟩), .slot ⟨1⟩ 0 (.object ⟨2⟩),
        .slot ⟨2⟩ 0 .null]
    grounded := by decide +kernel }

/-- The objects of the chain, each with the one that it refers to. -/
def strungLinks : List (ObjectId × Option ObjectId) :=
  [(⟨0⟩, some ⟨1⟩), (⟨1⟩, some ⟨2⟩), (⟨2⟩, none)]

private theorem not_holdsFork_strung (id : StringId) : ¬ strung.graph.HoldsFork id := by
  have hparts : ∀ string ∈ strung.graph.strings.toList, ∀ parts ∈ string.parts?,
      ∀ right ∈ strung.graph.string? parts.2, right.isRope = false := by decide +kernel
  rintro ⟨rope, -, string, left, right, hrope, heq, -, other, hright, hforks⟩
  have hmem : string ∈ strung.graph.strings.toList :=
    Array.mem_toList_iff.mpr (Array.mem_of_getElem? hrope)
  rw [hparts string hmem (left, right) heq other hright] at hforks
  cases hforks

private theorem chain_strung : strung.graph.Chain ⟨0⟩ [⟨0⟩, ⟨1⟩, ⟨2⟩] := by
  have hlineage : strung.graph.BareLineage ⟨0⟩ := by
    obtain ⟨shape, hid, base, hbase, hproperty, hgetter, hsetter, hparent, hprevious⟩ :
        ∃ shape ∈ strung.graph.shape? ⟨0⟩, ∃ base ∈ strung.graph.baseShape? shape.base,
          shape.property.thing? = none ∧ base.getter = none ∧ base.setter = none ∧
          base.parent = none ∧ shape.previous = none := by decide +kernel
    refine .mk hid hbase hproperty hgetter hsetter hparent fun previous hsome => ?_
    rw [hprevious] at hsome
    cases hsome
  have hlink : ∀ link ∈ strungLinks, ∃ object, strung.graph.Link ⟨0⟩ link.1 link.2 object := by
    have hcells : ∀ link ∈ strungLinks,
        ∃ object ∈ strung.graph.object? link.1, object.type = ⟨0⟩ ∧ object.shape = ⟨0⟩ ∧
          strung.graph.classOf? object = some .plain ∧
          (∀ index < object.span, (object.slot index).thing? =
            if index + 1 = object.span then link.2.map Ref.thing else none) ∧
          (link.2.isSome = true → 0 < object.span) := by decide +kernel
    intro link hmem
    obtain ⟨object, hcell, htype, hshape, hplain, hslot, hspan⟩ := hcells link hmem
    exact ⟨object, hcell, htype, hplain, hshape ▸ hlineage, hslot, hspan⟩
  obtain ⟨_, hfirst⟩ := hlink (⟨0⟩, some ⟨1⟩) (by decide)
  obtain ⟨_, hsecond⟩ := hlink (⟨1⟩, some ⟨2⟩) (by decide)
  obtain ⟨_, hthird⟩ := hlink (⟨2⟩, none) (by decide)
  exact .link hfirst (.link hsecond (.last hthird))

end Launch

/-- A chain of three objects on a stack of two places. -/
theorem constant_stack_sample :
    let L : Launch Unit := Launch.strung
    let id : StringId := ⟨2⟩
    let type : TypeObjectId := ⟨0⟩
    (L.graph.contains id.thing = true ∧ L.start.stack.Tidy ∧ L.start.delayed.Tidy ∧
      ¬ L.graph.HoldsFork id ∧
      ∃ c, ChronM.pushString L.graph none id { toMarking := L.start } = .ok () c ∧
        MarkM.pushString L.graph id L.start = .ok () c.toMarking ∧ c.Aloof L.start) ∧
    (L.Gentle ∧ L.graph.Chain type [⟨0⟩, ⟨1⟩, ⟨2⟩] ∧
      (∀ child, ¬ L.graph.Child type.thing child) ∧
      ∃ s t, MarkM.make L.graph (.unnamed ⟨.object, 0⟩) (L.startWith {}) = .ok () s ∧
        MarkM.drain L.graph .unlimited s = .ok true t ∧ t.isDrained = true ∧ L.Modest t) := by
  intro L id type
  have hid : L.graph.contains id.thing = true := by decide +kernel
  have hdelayed : L.start.delayed.Tidy := DelayedList.tidy_empty
  have hunforked : ¬ L.graph.HoldsFork id := Launch.not_holdsFork_strung id
  have hgentle : L.Gentle := by
    intro watcher hwatcher entry memory
    obtain rfl := Option.some.inj hwatcher
    rfl
  have hchildless : ∀ child, ¬ L.graph.Child type.thing child := by
    have hnone : L.graph.shownEdges type.thing = [] := by decide +kernel
    rintro child ⟨edge, hedge, -⟩
    rw [hnone] at hedge
    cases hedge
  have hroom : allocationFault? L.configuration.segmentSize entryBytes = none := by decide
  refine ⟨⟨hid, L.start_idle.2.1, hdelayed, hunforked,
    constant_stack.1 L.history id L.start hid L.start_idle.2.1 hdelayed hunforked⟩,
    hgentle, Launch.chain_strung, hchildless, ?_⟩
  refine (constant_stack.2 L {} type ⟨0⟩ _ hgentle Launch.chain_strung hchildless).resolve_right ?_
  rintro ⟨fault, t, hfault, -⟩
  rw [hroom] at hfault
  cases hfault

end MarkPhase
