import MarkPhase.Proofs.Delays
import MarkPhase.Proofs.Loads
import MarkPhase.Proofs.Segments
import MarkPhase.Scanning

/-!
The marker and its outline. A state is tracked by an outline that has the same marks
and the same delayed list, and that owes what is on the stack together with what is
in hand: the duties that the running part of the marker has taken over and has not
discharged yet. Every elementary operation of the marker is a move of the outline.
-/

namespace MarkPhase

variable {ω : Type}

/-- The entry of a record that tells of a delay. -/
def Record.refused? : Record → Option StackEntry
  | .delayedOwner entry => some entry
  | _ => none

namespace Watcher

/-- A watcher that has been told or asked something. -/
def hear (watcher : Watcher ω) : Notice → Watcher ω
  | .scanned thing => { watcher with memory := watcher.observer.onScan thing watcher.memory }
  | .asked entry => { watcher with memory := (watcher.observer.refuses entry watcher.memory).2 }

theorem observer_hear (watcher : Watcher ω) (notices : List Notice) :
    (notices.foldl hear watcher).observer = watcher.observer := by
  induction notices generalizing watcher with
  | nil => rfl
  | cons notice notices ih =>
    rw [List.foldl_cons, ih]
    cases notice <;> rfl

end Watcher

/-- A terrain for a marker that starts from a given state. -/
structure Setting (ω : Type) extends Terrain where
  start : Marking ω
  start_filter : start.context.compartment = filter
  roomy_iff : roomy ↔ fitsMemory start.stack.segmentSize start.stack.itemBytes = true
  gentle : calm → ∀ watcher, start.watcher = some watcher →
    ∀ entry memory, (watcher.observer.refuses entry memory).1 = false

/-- The work on the stack. -/
def Marker.stacked (marker : Marker ω) : List Duty :=
  marker.stack.items.map StackEntry.duty

/-- The state looks like the outline. The stack has the ropes set aside by a rope walk on
top, and no rope below them. -/
structure Setting.Tracks (S : Setting ω) (hand : List Duty) (waiting : List StringId) (o : Outline)
    (s : Marking ω) : Prop where
  marks : s.marks = o.marks
  stack : s.stack.Tidy
  ropes : ∃ plain, s.stack.items = waiting.map .rope ++ plain ∧ ∀ id, .rope id ∉ plain
  work : o.work = ↑(hand ++ s.stacked)
  delayedTidy : s.delayed.Tidy
  delayed : s.delayed.things = o.delayed
  delays : s.delays = S.start.delays + o.delays.length
  journal : s.journal.toList.filterMap Record.refused? =
    S.start.journal.toList.filterMap Record.refused? ++ o.delays
  watcher : s.watcher = S.start.watcher.map (o.notices.foldl Watcher.hear)
  filter : s.context.compartment = S.filter
  segmentSize : s.stack.segmentSize = S.start.stack.segmentSize
  itemBytes : s.stack.itemBytes = S.start.stack.itemBytes
  roomy : s.stack.items ≠ [] → S.roomy
  bounded : S.calm → o.load S.graph < s.stack.maxSize

/-- The only way in which a tracked move may fail: there is no memory for a segment of the
stack. -/
def Setting.Overflows (S : Setting ω) (fault : Fault) (_ : Marking ω) : Prop :=
  allocationFault? S.start.stack.segmentSize S.start.stack.itemBytes = some fault

/-- Where segments fit memory, no tracked move fails. -/
theorem Setting.Overflows.not_roomy {S : Setting ω} {fault : Fault} {t : Marking ω}
    (h : S.Overflows fault t) : ¬ S.roomy := by
  rw [S.roomy_iff, fitsMemory_of_allocationFault? h]
  exact Bool.false_ne_true

variable {S : Setting ω} {hand : List Duty} {waiting : List StringId} {o : Outline} {s : Marking ω}

namespace Setting.Tracks

theorem perm (h : S.Tracks hand waiting o s) {hand' : List Duty} (hperm : hand.Perm hand') :
    S.Tracks hand' waiting o s :=
  { h with work := h.work.trans (Multiset.coe_eq_coe.mpr (hperm.append_right _)) }

theorem work_cons {duty : Duty} (h : S.Tracks (duty :: hand) waiting o s) :
    o.work = duty ::ₘ ↑(hand ++ s.stacked) := by
  rw [h.work, List.cons_append, Multiset.cons_coe]

theorem bounded_of_move (h : S.Tracks hand waiting o s) {o' : Outline} (hmove : S.Move o o') :
    S.calm → o'.load S.graph < s.stack.maxSize :=
  fun hcalm => (Outline.load_move hmove).trans_lt (h.bounded hcalm)

/-- A duty in hand turns into others. -/
theorem turn {duty : Duty} (duties : List Duty) (h : S.Tracks (duty :: hand) waiting o s)
    (hturn : S.Turn o ↑(hand ++ s.stacked) duty ↑duties) :
    ∃ o', S.Move o o' ∧ S.Tracks (duties ++ hand) waiting o' s ∧ o'.marks = o.marks ∧
      o'.load S.graph + duty.weight =
        o.load S.graph + ((duties : Multiset Duty).map Duty.weight).sum := by
  have hmove := Terrain.Move.turn h.work_cons hturn
  refine ⟨_, hmove, ?_, rfl, ?_⟩
  · exact { h with
      work := by
        rw [List.append_assoc]
        exact Multiset.coe_add _ _
      bounded := h.bounded_of_move hmove }
  · rw [Outline.load_work h.work_cons, Outline.load_add]
    omega

theorem setLabel (h : S.Tracks hand waiting o s) (label : Label) :
    S.Tracks hand waiting o { s with context := { s.context with label } } :=
  { h with }

theorem record (h : S.Tracks hand waiting o s) {entry : Record} (hentry : entry.refused? = none) :
    S.Tracks hand waiting o { s with journal := s.journal.push entry } :=
  { h with journal := by simpa [hentry] using h.journal }

theorem keepFilename (h : S.Tracks hand waiting o s) (filenames : FilenameTable) :
    S.Tracks hand waiting o { s with filenames } :=
  { h with }

end Setting.Tracks

/-- The state is tracked by an outline that the given one leads to. -/
def Setting.Lands (S : Setting ω) (o : Outline) (hand : List Duty) (waiting : List StringId)
    (told : Outline → Prop) (s : Marking ω) : Prop :=
  ∃ o', S.Run o o' ∧ S.Tracks hand waiting o' s ∧ told o'

namespace Setting.Lands

variable {told told' : Outline → Prop}

theorem imp (h : S.Lands o hand waiting told s)
    (htold : ∀ o', S.Run o o' → told o' → told' o') : S.Lands o hand waiting told' s := by
  obtain ⟨o', hrun, htracks, hknown⟩ := h
  exact ⟨o', hrun, htracks, htold o' hrun hknown⟩

theorem head {o' : Outline} (hrun : S.Run o o') (h : S.Lands o' hand waiting told s) :
    S.Lands o hand waiting told s := by
  obtain ⟨o'', hrun', hrest⟩ := h
  exact ⟨o'', hrun.trans hrun', hrest⟩

end Setting.Lands

namespace Setting.Tracks

open MarkM

variable {faults : Fault → Marking ω → Prop}

/-- A duty in hand is done with, and its weight with it. -/
theorem discharge {duty : Duty} (h : S.Tracks (duty :: hand) waiting o s)
    (hturn : S.Turn o ↑(hand ++ s.stacked) duty 0) :
    S.Lands o hand waiting (fun o' => o'.load S.graph + duty.weight = o.load S.graph) s := by
  obtain ⟨o', hmove, htracks, -, hload⟩ := h.turn [] hturn
  rw [Multiset.coe_nil, Multiset.map_zero, Multiset.sum_zero, Nat.add_zero] at hload
  exact ⟨o', .single hmove, htracks, hload⟩

/-- The watcher, too, has heard one thing more. -/
theorem heard (h : S.Tracks hand waiting o s) (notice : Notice) :
    s.watcher.map (fun watcher => watcher.hear notice) =
      S.start.watcher.map ((o.notices ++ [notice]).foldl Watcher.hear) := by
  rw [h.watcher, Option.map_map]
  congr 1
  funext watcher
  rw [List.foldl_append]
  rfl

theorem yields_noteScan {thing : Thing} (h : S.Tracks (.fresh thing :: hand) waiting o s) :
    Yields (noteScan thing) s (fun _ t => t.stack = s.stack ∧
      S.Lands o (.scanning thing :: hand) waiting (fun _ => True) t) faults := by
  have hmove : S.Move o { o with
      work := .scanning thing ::ₘ ↑(hand ++ s.stacked)
      notices := o.notices ++ [.scanned thing] } := .scan h.work_cons
  refine ⟨rfl, _, .single hmove, ?_, trivial⟩
  exact { h with
    work := rfl
    watcher := h.heard (.scanned thing)
    bounded := h.bounded_of_move hmove }

/-- What shading a thing amounts to. -/
theorem yields_claim (h : S.Tracks hand waiting o s) {thing : Thing} (color : Color)
    (hthing : S.graph.contains thing = true) :
    Yields (claim S.graph thing color) s (fun claimed t =>
      (claimed = true ∧ S.graph.Allowed S.filter thing ∧ ¬ o.Marked thing ∧
        t = { s with marks := s.marks.set thing (.marked color) }) ∨
      (claimed = false ∧ (S.graph.Allowed S.filter thing → o.Marked thing) ∧ t = s)) faults := by
  obtain ⟨compartment, hcompartment⟩ := (S.graph.contains_iff_exists thing).mp hthing
  simp only [claim, hcompartment, yields_bind, yields_need_some, yields_get]
  have hallows : s.context.allows compartment =
      Context.allows { compartment := S.filter } compartment := by
    rw [← h.filter]
    rfl
  refine yields_ite (fun hallowed => ?_) fun hallowed => ?_
  · rw [yields_modifyGet]
    have hthing : S.graph.Allowed S.filter thing := ⟨compartment, hcompartment, hallows ▸ hallowed⟩
    by_cases hmarked : s.marks.isMarked thing = true
    · rw [if_pos hmarked]
      exact Or.inr ⟨rfl, fun _ => by rwa [Outline.Marked, ← h.marks], rfl⟩
    · rw [if_neg hmarked]
      exact Or.inl ⟨rfl, hthing, by rwa [Outline.Marked, ← h.marks], rfl⟩
  · rw [yields_pure]
    refine Or.inr ⟨rfl, fun hthing => ?_, rfl⟩
    obtain ⟨other, hother, hallowed'⟩ := hthing
    obtain rfl : compartment = other := Option.some.inj (hcompartment.symm.trans hother)
    exact absurd (hallows ▸ hallowed') hallowed

/-- A thing that has just been shaded is in hand. -/
theorem claimed (h : S.Tracks hand waiting o s) {thing : Thing} (color : Color)
    (hhome : S.home thing) (hnew : ¬ o.Marked thing) :
    S.Lands o (.fresh thing :: hand) waiting (fun o' => o'.Marked thing)
      { s with marks := s.marks.set thing (.marked color) } := by
  have hmove : S.Move o { o.mark thing color with work := .fresh thing ::ₘ o.work } :=
    .claim color hhome hnew
  refine ⟨_, .single hmove, ?_, Outline.marked_mark.mpr (Or.inl rfl)⟩
  exact { h with
    marks := by
      change s.marks.set thing _ = o.marks.set thing _
      rw [h.marks]
    work := by
      change Duty.fresh thing ::ₘ o.work = _
      rw [h.work]
      rfl
    bounded := h.bounded_of_move hmove }

/-- A state whose watcher has been asked about an entry. -/
private def asked (entry : StackEntry) (s : Marking ω) : Marking ω :=
  { s with watcher := s.watcher.map fun watcher => watcher.hear (.asked entry) }

/-- Where nothing is ever refused, the observer does not refuse the entry. -/
private theorem yields_isRefused (h : S.Tracks hand waiting o s) (entry : StackEntry) :
    Yields (isRefused entry) s
      (fun refused t => t = asked entry s ∧ (refused = true → ¬ S.calm)) faults := by
  have hwatched := h.watcher
  unfold isRefused
  rw [yields_modifyGet]
  cases hwatcher : s.watcher with
  | none =>
    refine ⟨?_, nofun⟩
    simp only [asked, hwatcher, Option.map_none]
    rw [← hwatcher]
  | some watcher =>
    refine ⟨?_, fun hrefused hcalm => ?_⟩
    · simp only [asked, hwatcher, Option.map_some]
      rfl
    · rw [hwatcher] at hwatched
      obtain ⟨first, hfirst, rfl⟩ := Option.map_eq_some_iff.mp hwatched.symm
      have hanswer : ((o.notices.foldl Watcher.hear first).observer.refuses entry
          (o.notices.foldl Watcher.hear first).memory).1 = true := hrefused
      rw [Watcher.observer_hear, S.gentle hcalm first hfirst] at hanswer
      cases hanswer

/-- The owner of a refused entry is on the delayed list from then on. -/
private theorem yields_delay {entry : StackEntry} {duty : Duty}
    (h : S.Tracks (duty :: hand) waiting o s) (hcalm : ¬ S.calm)
    (hrecords : entry.Records S.graph duty) (hmarked : o.Marked entry.owner) :
    Yields (delay entry) (asked entry s) (fun _ t => t.stack = s.stack ∧
      S.Lands o hand waiting (fun _ => True) t) faults := by
  have hmove := Terrain.Move.refuse hcalm hrecords h.work_cons
  have hmarks : (asked entry s).marks.isMarked entry.owner = true := by
    change s.marks.isMarked entry.owner = true
    rw [h.marks]
    exact hmarked
  unfold delay
  rw [yields_bind, yields_get, if_pos hmarks, yields_bind, yields_modifyGet]
  by_cases hdelayed : entry.owner ∈ o.delayed
  · have hadd : (asked entry s).delayed.add entry.owner = (false, s.delayed) :=
      h.delayedTidy.add_of_mem (h.delayed ▸ hdelayed)
    rw [Outline.refuse, if_pos hdelayed] at hmove
    rw [hadd, if_neg Bool.false_ne_true, yields_pure]
    refine ⟨rfl, _, .single hmove, ?_, trivial⟩
    exact { h with
      work := rfl
      watcher := h.heard (.asked entry)
      bounded := h.bounded_of_move hmove }
  · obtain ⟨hadded, hthings, htidy⟩ := h.delayedTidy.add_of_notMem (h.delayed ▸ hdelayed)
    rw [Outline.refuse, if_neg hdelayed] at hmove
    change Yields (if (s.delayed.add entry.owner).1 = true then _ else _) _ _ _
    rw [if_pos hadded, yields_bind, yields_modify, MarkM.record, yields_modify]
    refine ⟨rfl, _, .single hmove, ?_, trivial⟩
    exact { h with
      work := rfl
      delayedTidy := htidy
      delayed := by
        rw [← h.delayed]
        exact hthings
      delays := by
        rw [List.length_append, List.length_singleton, ← Nat.add_assoc, ← h.delays]
        rfl
      journal := by
        simp [asked, Record.refused?, h.journal]
      watcher := h.heard (.asked entry)
      bounded := h.bounded_of_move hmove }

theorem size_le_load (h : S.Tracks hand waiting o s) : s.stack.size ≤ o.load S.graph := by
  have hpos : ∀ entry : StackEntry, 1 ≤ entry.duty.weight := by
    intro entry
    cases entry <;> simp [StackEntry.duty, Duty.weight]
  have hsum : ∀ items : List StackEntry,
      items.length ≤ ((items.map StackEntry.duty).map Duty.weight).sum := by
    intro items
    induction items with
    | nil => exact Nat.le_refl _
    | cons entry items ih =>
      rw [List.map_cons, List.map_cons, List.sum_cons, List.length_cons, Nat.add_comm]
      exact Nat.add_le_add (hpos entry) ih
  have hwork : (o.work.map Duty.weight).sum =
      (hand.map Duty.weight).sum + (s.stacked.map Duty.weight).sum := by
    rw [h.work, Multiset.map_coe, Multiset.sum_coe, List.map_append, List.sum_append]
  have hitems := hsum s.stack.items
  rw [h.stack.size_eq, Outline.load, hwork]
  unfold Marker.stacked
  omega

/-- A duty in hand goes where the stack or the delayed list has it. A rope goes on top
of those set aside. -/
theorem yields_pushEntry {entry : StackEntry} {duty : Duty}
    (h : S.Tracks (duty :: hand) waiting o s) (hrecords : entry.Records S.graph duty)
    (hmarked : o.Marked entry.owner) (waiting' : List StringId)
    (hropes : ∃ plain, entry :: s.stack.items = waiting'.map .rope ++ plain ∧
      ∀ id, .rope id ∉ plain) :
    Yields (pushEntry entry) s (fun _ t =>
      (t.stack.size = s.stack.size + 1 ∧ S.Lands o hand waiting' (fun _ => True) t) ∨
      (t.stack = s.stack ∧ S.Lands o hand waiting (fun _ => True) t)) S.Overflows := by
  unfold pushEntry
  rw [yields_bind]
  refine (h.yields_isRefused entry).mono ?_ fun _ _ => id
  intro refused t hend
  obtain ⟨rfl, hcalm⟩ := hend
  refine yields_ite (fun hrefused => ?_) fun hnot => ?_
  · refine (h.yields_delay (hcalm hrefused) hrecords hmarked).imp fun _ t ht => Or.inr ht
  · rw [yields_bind, yields_get]
    have hstack : (asked entry s).stack = s.stack := rfl
    rw [hstack]
    unfold SegmentedStack.admits
    by_cases hfull : s.stack.isFull = true
    · rw [if_pos hfull]
      have hrefuse : ¬ S.calm := by
        intro hcalm
        have hload := h.bounded hcalm
        have hsize := h.size_le_load
        have hmax : s.stack.maxSize ≤ s.stack.size := of_decide_eq_true hfull
        omega
      exact (h.yields_delay hrefuse hrecords hmarked).imp fun _ t ht => Or.inr ht
    · rw [if_neg hfull]
      rw [h.segmentSize, h.itemBytes]
      cases hfault : allocationFault? S.start.stack.segmentSize S.start.stack.itemBytes with
      | some fault => exact hfault
      | none =>
        change Yields (modify _) _ _ _
        rw [yields_modify]
        have hroomy : S.roomy := S.roomy_iff.mpr (allocationFault?_eq_none.mp hfault)
        have hitems : (s.stack.extend entry).items = entry :: s.stack.items :=
          h.stack.items_extend entry
        have hmove := Terrain.Move.store hroomy hrecords h.work_cons
        refine Or.inl ⟨h.stack.size_extend entry, _, .single hmove, ?_, trivial⟩
        exact { h with
          stack := h.stack.extend entry
          ropes := by
            change ∃ plain, (s.stack.extend entry).items = _ ∧ _
            rw [hitems]
            exact hropes
          work := by
            change entry.duty ::ₘ ↑(hand ++ s.stacked) =
              ↑(hand ++ (s.stack.extend entry).items.map StackEntry.duty)
            rw [hitems, List.map_cons, Multiset.cons_coe, Multiset.coe_eq_coe]
            exact List.perm_middle.symm
          watcher := h.heard (.asked entry)
          segmentSize := by
            rw [← h.segmentSize]
            exact SegmentedStack.segmentSize_extend _ _
          itemBytes := by
            rw [← h.itemBytes]
            exact SegmentedStack.itemBytes_extend _ _
          roomy := fun _ => hroomy
          bounded := by
            intro hcalm
            have hload := h.bounded_of_move hmove hcalm
            exact hload.trans_eq (SegmentedStack.maxSize_extend _ _).symm }

theorem yields_pushEntry_plain {entry : StackEntry} {duty : Duty}
    (h : S.Tracks (duty :: hand) [] o s) (hrecords : entry.Records S.graph duty)
    (hmarked : o.Marked entry.owner) (hrope : ∀ id, entry ≠ .rope id) :
    Yields (pushEntry entry) s (fun _ => S.Lands o hand [] fun _ => True) S.Overflows := by
  obtain ⟨plain, hitems, hplain⟩ := h.ropes
  have hropes : ∃ plain, entry :: s.stack.items = ([] : List StringId).map .rope ++ plain ∧
      ∀ id, .rope id ∉ plain := by
    refine ⟨entry :: plain, by rw [hitems]; rfl, fun id hmem => ?_⟩
    rcases List.mem_cons.mp hmem with heq | hmem
    · exact hrope id heq.symm
    · exact hplain id hmem
  refine (h.yields_pushEntry hrecords hmarked [] hropes).imp fun _ t ht => ?_
  rcases ht with ⟨_, hlands⟩ | ⟨_, hlands⟩
  · exact hlands
  · exact hlands

/-- The newest entry is taken in hand. -/
theorem yields_popEntry (h : S.Tracks hand waiting o s) {entry : StackEntry}
    {rest : List StackEntry} (hitems : s.stack.items = entry :: rest) {waiting' : List StringId}
    (hropes : ∃ plain, rest = waiting'.map .rope ++ plain ∧ ∀ id, .rope id ∉ plain) :
    Yields popEntry s (fun popped t => popped = some entry ∧ t.stack.size + 1 = s.stack.size ∧
      S.Tracks (entry.duty :: hand) waiting' o t) faults := by
  obtain ⟨hhead, htail⟩ := h.stack.items_pop
  obtain ⟨hsegment, hbytes, hmax, -⟩ := s.stack.settings_pop
  have htidy := h.stack.pop
  rw [hitems] at hhead htail
  unfold popEntry
  rw [yields_modifyGet]
  refine ⟨hhead, ?_, ?_⟩
  · change s.stack.pop.2.size + 1 = s.stack.size
    rw [htidy.size_eq, h.stack.size_eq, htail, hitems]
    rfl
  · exact { h with
      stack := htidy
      ropes := by
        obtain ⟨plain, hplain⟩ := hropes
        exact ⟨plain, htail.trans hplain.1, hplain.2⟩
      work := by
        change o.work = ↑(entry.duty :: hand ++ s.stack.pop.2.items.map StackEntry.duty)
        rw [htail, h.work, Marker.stacked, hitems, Multiset.coe_eq_coe]
        exact List.perm_middle
      segmentSize := hsegment.trans h.segmentSize
      itemBytes := hbytes.trans h.itemBytes
      roomy := fun _ => h.roomy (by rw [hitems]; exact List.cons_ne_nil _ _)
      bounded := fun hcalm => (h.bounded hcalm).trans_eq hmax.symm }

end Setting.Tracks

end MarkPhase
