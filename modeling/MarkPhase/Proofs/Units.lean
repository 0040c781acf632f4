import MarkPhase.Draining
import MarkPhase.Proofs.Slots
import MarkPhase.Proofs.Visiting

/-!
Units of work. An object is opened by leaving its children to two ranges of values, one
of which is put aside; a range is read up to the first object that nobody has marked.
Every unit, whatever it works on, lowers the load.
-/

namespace MarkPhase

/-! The regions of an object. -/

namespace ObjectCell

variable {object : ObjectCell} {child : Thing}

/-- The region holds a reference to `child`. -/
def RegionHolds (object : ObjectCell) (region : Region) (child : Thing) : Prop :=
  ∃ index < object.regionSize region, (object.regionValue region index).thing? = some child

/-- The slots below the span are those of the inline slots and of the overflow in use. -/
theorem Stored.slot_iff (h : object.Stored) :
    (∃ index < object.span, (object.slot index).thing? = some child) ↔
      object.RegionHolds .dynamic child ∨ object.RegionHolds .fixed child := by
  constructor
  · intro hgiven
    obtain ⟨index, hlt, hslot⟩ := hgiven
    unfold slot at hslot
    split at hslot
    · rename_i hinline
      exact Or.inr ⟨index, lt_min hlt hinline, hslot⟩
    · rename_i hinline
      refine Or.inl ⟨index - object.inlineSlots.size, ?_, hslot⟩
      have h := h.span_le
      unfold regionSize
      cases hoverflow : object.overflow with
      | none =>
        simp only [hoverflow, Option.getD_none, Array.size_empty] at h
        omega
      | some slots =>
        simp only [hoverflow, Option.getD_some] at h ⊢
        omega
  · intro hgiven
    rcases hgiven with ⟨index, hlt, hvalue⟩ | ⟨index, hlt, hvalue⟩
    · refine ⟨object.inlineSlots.size + index, ?_, ?_⟩
      · unfold regionSize at hlt
        cases hoverflow : object.overflow with
        | none => simp [hoverflow] at hlt
        | some slots =>
          simp only [hoverflow] at hlt
          omega
      · rw [slot, if_neg (by omega), Nat.add_sub_cancel_left]
        exact hvalue
    · simp only [regionSize, lt_inf_iff] at hlt
      refine ⟨index, hlt.1, ?_⟩
      rw [slot, if_pos hlt.2]
      exact hvalue

/-- The range of all the values in use in a region. -/
def whole (object : ObjectCell) (id : ObjectId) (region : Region) : ValueRange :=
  { owner := id, region, start := 0, stop := object.regionSize region }

end ObjectCell

theorem report_mem_elements {object : ObjectCell} {child : Thing} :
    .report child ∈ hookVisits object (some .elements) ↔ object.RegionHolds .elements child := by
  simp [hookVisits, ObjectCell.region, ObjectCell.RegionHolds]

namespace Graph

variable {g : Graph} {range : ValueRange} {object : ObjectCell} {child : Thing}

theorem holds_whole {id : ObjectId} (hid : g.object? id = some object) {region : Region} :
    g.Holds (object.whole id region) child ↔ object.RegionHolds region child := by
  constructor
  · intro hgiven
    obtain ⟨other, hother, index, -, hlt, hvalue⟩ := hgiven
    obtain rfl : object = other := Option.some.inj (hid.symm.trans hother)
    exact ⟨index, hlt, hvalue⟩
  · intro hgiven
    obtain ⟨index, hlt, hvalue⟩ := hgiven
    exact ⟨object, hid, index, Nat.zero_le _, hlt, hvalue⟩

theorem admits_whole {id : ObjectId} (hid : g.object? id = some object) {region : Region}
    (hchild : ∀ child, object.RegionHolds region child → g.Child id.thing child) :
    g.Admits (object.whole id region) where
  stop_le := ⟨object, hid, Nat.le_refl _⟩
  below child hholds := hchild child ((holds_whole hid).mp hholds)

/-- What a range holds is its first value or held by the rest of it. -/
theorem Holds.first_or_rest (hobject : g.object? range.owner = some object)
    (h : g.Holds range child) :
    (object.regionValue range.region range.start).thing? = some child ∨
      g.Holds range.rest child := by
  obtain ⟨other, hother, index, hle, hlt, hvalue⟩ := h
  obtain rfl : object = other := Option.some.inj (hobject.symm.trans hother)
  rcases Nat.eq_or_lt_of_le hle with rfl | hle
  · exact Or.inl hvalue
  · exact Or.inr ⟨object, hobject, index, hle, hlt, hvalue⟩

theorem holds_first (hobject : g.object? range.owner = some object)
    (hlt : range.start < range.stop)
    (hvalue : (object.regionValue range.region range.start).thing? = some child) :
    g.Holds range child :=
  ⟨object, hobject, range.start, Nat.le_refl _, hlt, hvalue⟩

theorem not_holds_of_empty (hempty : range.stop ≤ range.start) : ¬ g.Holds range child := by
  intro hgiven
  obtain ⟨-, -, index, hle, hlt, -⟩ := hgiven
  omega

end Graph

variable {ω : Type} {S : Setting ω} {hand : List Duty} {o : Outline} {s : Marking ω}
  {faults : Fault → Marking ω → Prop}

/-- Work on the stack waits. -/
theorem Marker.waits_of_stacked {marker : Marker ω} {duty : Duty} (h : duty ∈ marker.stacked) :
    duty.Waits := by
  obtain ⟨entry, -, rfl⟩ := List.mem_map.mp h
  cases entry <;> trivial

namespace Setting

open MarkM

/-! Ranges of values. -/

/-- A range that holds nothing new is given up. -/
theorem Tracks.drop {duty : Duty} {range : ValueRange} (h : S.Tracks (duty :: hand) [] o s)
    (hduty : duty = .reading range ∨ duty = .cut range) (hempty : range.stop ≤ range.start) :
    S.Lands o hand [] (fun o' => o'.load S.graph < o.load S.graph) s := by
  have hread : o.Read S.toTerrain range :=
    fun child hholds _ => absurd hholds (Graph.not_holds_of_empty hempty)
  have hweight : duty.weight = 1 := by
    rcases hduty with rfl | rfl
    · rfl
    · rfl
  refine (h.discharge (.drop hduty hread)).imp fun o' _ hload => ?_
  omega

/-- What is cut off of a range goes on the stack unless nothing is left. -/
theorem Tracks.yields_pushRange {range : ValueRange} (h : S.Tracks (.cut range :: hand) [] o s)
    (hle : range.start ≤ range.stop) (hmarked : o.Marked range.owner.thing) :
    Yields (pushRange range) s (fun _ => S.Lands o hand [] fun _ => True) S.Overflows := by
  unfold pushRange
  rw [if_neg (Nat.not_lt.mpr hle)]
  refine yields_ite (fun hlt => ?_) fun hnot => ?_
  · exact h.yields_pushEntry_plain (.part hlt) hmarked (by simp)
  · exact (h.drop (Or.inr rfl) (Nat.le_of_not_lt hnot)).imp fun _ _ _ => trivial

/-- The first value of a range has been seen to. -/
theorem Tracks.pass {range : ValueRange} {object : ObjectCell}
    (h : S.Tracks (.reading range :: hand) [] o s)
    (hobject : S.graph.object? range.owner = some object) (hlt : range.start < range.stop)
    (hfirst : ∀ child, (object.regionValue range.region range.start).thing? = some child →
      S.graph.Allowed S.filter child → o.Marked child) :
    S.Lands o (.reading range.rest :: hand) [] (fun _ => True) s := by
  have hrest : ∀ child, S.graph.Holds range child → S.graph.Allowed S.filter child →
      o.Marked child ∨ S.graph.Holds range.rest child := fun child hholds hallowed =>
    (hholds.first_or_rest hobject).imp_left fun hvalue => hfirst child hvalue hallowed
  obtain ⟨o', hmove, htracks, -⟩ := h.turn [.reading range.rest] (.pass hlt hrest)
  exact ⟨o', .single hmove, htracks, trivial⟩

/-- The first value of a range is an object that has just been shaded. -/
theorem Tracks.found {range : ValueRange} {object : ObjectCell}
    (h : S.Tracks (.reading range :: hand) [] o s)
    (hobject : S.graph.object? range.owner = some object) (hlt : range.start < range.stop)
    {id : ObjectId} (hvalue : object.regionValue range.region range.start = .object id)
    (color : Color) (hhome : S.home id.thing) (hnew : ¬ o.Marked id.thing) :
    S.Lands o (.cut range.rest :: .fresh id.thing :: hand) []
      (fun o' => o'.Marked id.thing ∧ o'.load S.graph < o.load S.graph)
      { s with marks := s.marks.set id.thing (.marked color) } := by
  have hthing : (object.regionValue range.region range.start).thing? = some id.thing := by
    rw [hvalue]
    rfl
  have hrest : ∀ child, S.graph.Holds range child →
      child = id.thing ∨ S.graph.Holds range.rest child := by
    intro child hholds
    refine (hholds.first_or_rest hobject).imp_left fun hchild => ?_
    exact (Option.some.inj (hthing.symm.trans hchild)).symm
  have hmove := Terrain.Move.find color h.work_cons hlt hhome hnew
    (Graph.holds_first hobject hlt hthing) hrest
  refine ⟨_, .single hmove, ?_, Outline.marked_mark.mpr (Or.inl rfl), ?_⟩
  · exact { h with
      marks := by
        change s.marks.set id.thing _ = o.marks.set id.thing _
        rw [h.marks]
      work := rfl
      bounded := h.bounded_of_move hmove }
  · have hload := Outline.load_find h.work_cons hhome hnew color
    exact Nat.lt_of_lt_of_le (Nat.lt_add_of_pos_right Nat.zero_lt_two) hload.le

/-- A range is read to its end or up to an object that nobody had marked. -/
theorem Tracks.yields_readValues {owner : ObjectId} {object : ObjectCell} {region : Region}
    (count : Nat) {index : Nat}
    (h : S.Tracks
      (.reading { owner, region, start := index, stop := index + count } :: hand) [] o s)
    (hobject : S.graph.object? owner = some object) (hhome : S.home owner.thing)
    (hmarked : o.Marked owner.thing)
    (hadmits : S.graph.Admits { owner, region, start := index, stop := index + count }) :
    Yields (readValues S.graph owner object region count index) s
      (fun found => S.Lands o (Found found ++ hand) [] fun o' => o'.load S.graph < o.load S.graph)
      S.Overflows := by
  induction count generalizing index o s with
  | zero => exact h.drop (Or.inl rfl) (Nat.le_refl _)
  | succ count ih =>
    have hlt : index < index + (count + 1) := by omega
    have hstop : index + (count + 1) = index + 1 + count := by omega
    have hnext : ValueRange.rest { owner, region, start := index, stop := index + (count + 1) } =
        { owner, region, start := index + 1, stop := index + 1 + count } := by
      rw [ValueRange.rest, hstop]
    have hadmitsRest := hadmits.rest
    rw [hnext] at hadmitsRest
    have hwelcome : ∀ child, (object.regionValue region index).thing? = some child →
        S.Welcome child := fun child hvalue =>
      Terrain.welcome_child hhome (hadmits.child (Graph.holds_first hobject hlt hvalue))
    -- Once the first value has been seen to, the rest is read.
    have hgo : ∀ {o' : Outline} {t : Marking ω}, S.Run o o' →
        S.Tracks (.reading { owner, region, start := index, stop := index + (count + 1) } :: hand)
          [] o' t →
        (∀ child, (object.regionValue region index).thing? = some child →
          S.graph.Allowed S.filter child → o'.Marked child) →
        Yields (readValues S.graph owner object region count (index + 1)) t
          (fun found => S.Lands o (Found found ++ hand) [] fun o'' =>
            o''.load S.graph < o.load S.graph) S.Overflows := by
      intro o' t hrun htracks hfirst
      obtain ⟨o₁, hrun₁, h₁, -⟩ := htracks.pass hobject hlt hfirst
      rw [hnext] at h₁
      have hsofar := hrun.trans hrun₁
      refine (ih h₁ (Outline.marked_of_run hsofar hmarked) hadmitsRest).imp fun _ _ hlands => ?_
      exact (hlands.imp fun o₂ _ hload => hload.trans_le (Outline.load_run hsofar)).head hsofar
    rw [readValues]
    cases hvalue : object.regionValue region index with
    | string id =>
      have hstring : ∀ thing ∈ [id.thing], S.Welcome thing := by
        intro thing hthing
        obtain rfl := List.mem_singleton.mp hthing
        exact hwelcome _ (by rw [hvalue]; rfl)
      refine (covers_pushString id).yields_then h hstring fun hrun htracks hreached => ?_
      refine hgo hrun htracks fun child hchild => hreached child ?_
      rw [hvalue] at hchild
      exact List.mem_singleton.mpr (Option.some.inj hchild).symm
    | object id =>
      obtain ⟨hcontains, hhomeChild⟩ := hwelcome id.thing (by rw [hvalue]; rfl)
      rw [yields_bind, yields_color, yields_bind]
      apply (h.yields_claim _ hcontains).imp
      intro claimed t hend
      rcases hend with ⟨rfl, hallowed, hnew, rfl⟩ | ⟨rfl, hold, rfl⟩
      · rw [if_pos rfl, yields_bind]
        obtain ⟨o₁, hrun₁, h₁, -, hload⟩ :=
          h.found hobject hlt hvalue s.color (hhomeChild hallowed) hnew
        rw [hnext] at h₁
        refine (h₁.yields_pushRange (Nat.le_add_right _ _)
          (Outline.marked_of_run hrun₁ hmarked)).imp fun _ _ hlands => ?_
        exact (hlands.imp fun o₂ hrun₂ _ => (Outline.load_run hrun₂).trans_lt hload).head hrun₁
      · rw [if_neg Bool.false_ne_true]
        refine hgo .refl h fun child hchild hallowed => ?_
        rw [hvalue] at hchild
        cases hchild
        exact hold hallowed
    | _ => exact hgo .refl h fun child hchild => by simp [hvalue, Value.thing?] at hchild

/-- A range that is being read may be read to its end. -/
theorem Tracks.yields_scanRange {range : ValueRange} (h : S.Tracks [.reading range] [] o s)
    (hguarded : o.Guarded S.toTerrain) :
    Yields (scanRange S.graph range) s
      (fun found => S.Lands o (Found found) [] fun o' => o'.load S.graph < o.load S.graph)
      S.Overflows := by
  have hduty : .reading range ∈ o.work := by
    rw [h.work_cons]
    exact Multiset.mem_cons_self ..
  obtain ⟨hmarked, hhome⟩ := hguarded.owner _ hduty
  have hadmits := hguarded.admits _ hduty range rfl
  obtain ⟨object, hobject, hstop⟩ := hadmits.stop_le
  obtain ⟨owner, region, start, stop⟩ := range
  rw [scanRange, yields_bind, hobject, yields_need_some, if_neg (Nat.not_lt.mpr hstop)]
  rcases Nat.le_total start stop with hle | hreversed
  · obtain ⟨count, rfl⟩ := Nat.exists_eq_add_of_le hle
    rw [Nat.add_sub_cancel_left]
    refine (h.yields_readValues count hobject hhome hmarked hadmits).imp fun found _ hlands => ?_
    rwa [List.append_nil] at hlands
  · -- The ends of a range of a long region may have changed places in words.
    rw [Nat.sub_eq_zero_of_le hreversed, readValues, yields_pure]
    exact h.drop (Or.inl rfl) hreversed

/-! Objects. -/

/-- The children of an object that its type, its shape and its class's hook do not lead
to are left to a range put aside and a range to read. -/
theorem Tracks.spread {id : ObjectId} {aside range : ValueRange}
    (h : S.Tracks [.scanning id.thing] [] o s)
    (haside : aside.owner = id) (hrange : range.owner = id)
    (hregions : aside.region ≠ range.region) (hadmitsAside : S.graph.Admits aside)
    (hadmits : S.graph.Admits range)
    (hcover : ∀ child, S.graph.Child id.thing child → S.graph.Allowed S.filter child →
      o.Marked child ∨ S.graph.Holds aside child ∨ S.graph.Holds range child) :
    S.Lands o [.cut aside, .reading range] [] (fun _ => True) s := by
  have hquiet : ∀ thing, .retracing thing ∉ (s.stacked : Multiset Duty) :=
    fun thing hmem => Marker.waits_of_stacked (Multiset.mem_coe.mp hmem)
  obtain ⟨o', hmove, htracks, -⟩ := h.turn [.cut aside, .reading range]
    (.spread hquiet haside hrange hregions hadmitsAside hadmits hcover)
  exact ⟨o', .single hmove, htracks, trivial⟩

/-- The duty to read a range, if there is one. -/
def Reading (next : Option ValueRange) : List Duty :=
  (next.map Duty.reading).toList

/-- What is left of an array are its elements. -/
private theorem Tracks.openElements {id : ObjectId} {object : ObjectCell}
    (h : S.Tracks [.scanning id.thing] [] o s) (hid : S.graph.object? id = some object)
    (helements : ∀ child, object.RegionHolds .elements child → S.graph.Child id.thing child)
    (hcover : ∀ child, S.graph.Child id.thing child → S.graph.Allowed S.filter child →
      o.Marked child ∨ object.RegionHolds .elements child) :
    S.Lands o [.reading (object.whole id .elements)] [] (fun _ => True) s := by
  have hnothing : S.graph.Admits { owner := id, region := .dynamic, start := 0, stop := 0 } := {
    stop_le := ⟨object, hid, Nat.zero_le _⟩
    below := fun child hholds => absurd hholds (Graph.not_holds_of_empty (Nat.le_refl 0)) }
  obtain ⟨o₁, hrun₁, h₁, -⟩ := h.spread rfl rfl (by simp [ObjectCell.whole]) hnothing
    (Graph.admits_whole hid helements) fun child hchild hallowed =>
      (hcover child hchild hallowed).imp_right fun hholds =>
        Or.inr ((Graph.holds_whole hid).mpr hholds)
  exact ((h₁.drop (Or.inr rfl) (Nat.le_refl 0)).imp fun _ _ _ => trivial).head hrun₁

/-- What is left of an object with slots are the overflow, which is put aside, and the
inline slots. -/
private theorem Tracks.yields_openSlots {id : ObjectId} {object : ObjectCell}
    (h : S.Tracks [.scanning id.thing] [] o s) (hid : S.graph.object? id = some object)
    (hmarked : o.Marked id.thing)
    (hslots : ∀ region ∈ [Region.dynamic, .fixed], ∀ child, object.RegionHolds region child →
      S.graph.Child id.thing child)
    (hcover : ∀ child, S.graph.Child id.thing child → S.graph.Allowed S.filter child →
      o.Marked child ∨ object.RegionHolds .dynamic child ∨ object.RegionHolds .fixed child) :
    Yields (do
      if object.overflow.isSome then
        pushRange (object.whole id .dynamic)
      return some (object.whole id .fixed)) s
      (fun next => S.Lands o (Reading next) [] fun _ => next ≠ none) S.Overflows := by
  have hadmits : ∀ region ∈ [Region.dynamic, .fixed], S.graph.Admits (object.whole id region) :=
    fun region hregion => Graph.admits_whole hid (hslots region hregion)
  obtain ⟨o₁, hrun₁, h₁, -⟩ := h.spread rfl rfl (by simp [ObjectCell.whole])
    (hadmits .dynamic (by simp)) (hadmits .fixed (by simp)) fun child hchild hallowed =>
      (hcover child hchild hallowed).imp_right fun hholds =>
        hholds.imp (Graph.holds_whole hid).mpr (Graph.holds_whole hid).mpr
  refine yields_ite (fun hsome => ?_) fun hnone => ?_
  · rw [yields_bind]
    apply (h₁.yields_pushRange (Nat.zero_le _) (Outline.marked_of_run hrun₁ hmarked)).imp
    exact fun _ t hlands => (hlands.imp fun _ _ _ => by simp).head hrun₁
  · have hempty : object.regionSize .dynamic ≤ 0 := by
      rw [Bool.not_eq_true, Option.isSome_eq_false_iff, Option.isNone_iff_eq_none] at hnone
      simp [ObjectCell.regionSize, hnone]
    exact ((h₁.drop (Or.inr rfl) hempty).imp fun _ _ _ => by simp).head hrun₁

/-- An object is opened. Unless there are values to read it is done with. -/
theorem Tracks.yields_openObject {id : ObjectId} (h : S.Tracks [.fresh id.thing] [] o s)
    (hhome : S.home id.thing) (hmarked : o.Marked id.thing) :
    Yields (openObject S.graph id) s (fun next => S.Lands o (Reading next) [] fun o' =>
      next = none → o'.load S.graph < o.load S.graph) S.Overflows := by
  have hcontains := (S.home_allowed id.thing hhome).contains
  obtain ⟨object, hid⟩ := Graph.exists_object hcontains
  obtain ⟨objectClass, hclass⟩ := S.sound.exists_class hid
  have hstored : object.Stored := (S.sound.object hid).2
  have hchildren : ∀ child, S.graph.Child id.thing child ↔ _ :=
    fun child => S.sound.child_object hid hclass
  have hwelcome : ∀ child, S.graph.Child id.thing child → S.Welcome child :=
    fun child => Terrain.welcome_child hhome
  rw [openObject, yields_bind]
  apply h.yields_noteScan.imp
  intro _ s₁ hend
  obtain ⟨-, o₁, hrun₁, h₁, -⟩ := hend
  rw [yields_bind, hid, yields_need_some]
  refine (covers_pushTypeObject object.type).yields_then h₁ (fun thing hthing => ?_)
    fun {o₂ _} hrun₂ h₂ htype => ?_
  · obtain rfl := List.mem_singleton.mp hthing
    exact hwelcome _ ((hchildren _).mpr (Or.inl rfl))
  refine (covers_pushShape object.shape).yields_then h₂ (fun thing hthing => ?_)
    fun {o₃ s₃} hrun₃ h₃ hshape => ?_
  · obtain rfl := List.mem_singleton.mp hthing
    exact hwelcome _ ((hchildren _).mpr (Or.inr (Or.inl rfl)))
  have hrun := (hrun₁.trans hrun₂).trans hrun₃
  have hreached := (htype.of_run hrun₃).append hshape
  rw [yields_bind, hclass, yields_need_some]
  have hbefore : ∀ {o' : Outline} {child : Thing}, S.Run o₃ o' →
      object.type.thing = child ∨ object.shape.thing = child →
      S.graph.Allowed S.filter child → o'.Marked child := by
    intro o' child hrun' hchild hallowed
    refine Outline.marked_of_run hrun' (hreached child ?_ hallowed)
    rcases hchild with rfl | rfl <;> simp
  refine yields_ite (fun harray => ?_) fun _ => ?_
  · subst harray
    refine ((h₃.openElements hid (fun child hholds => ?_) fun child hchild hallowed => ?_).imp
      fun _ _ _ hnone => by cases hnone).head hrun
    · exact (hchildren child).mpr (Or.inr (Or.inr (Or.inl (report_mem_elements.mpr hholds))))
    · rcases (hchildren child).mp hchild with htype | hshape | hhook | ⟨hnative, -⟩
      · exact Or.inl (hbefore .refl (Or.inl htype) hallowed)
      · exact Or.inl (hbefore .refl (Or.inr hshape) hallowed)
      · exact Or.inr (report_mem_elements.mp hhook)
      · cases hnative
  · have hbroken : ∀ fault, .broken fault ∉ hookVisits object objectClass.hook := by
      intro fault hmem
      apply S.sound.broken_notMem hcontains true fault
      change _ ∈ objectVisits S.graph id
      simp only [objectVisits, hid, hclass, List.mem_append, hmem, true_or, or_true]
    refine (covers_follow (fun child _ => covers_pushThing child) hbroken).yields_then h₃
      (fun child hmem => ?_) fun {o₄ s₄} hrun₄ h₄ hhook => ?_
    · exact hwelcome _ ((hchildren _).mpr
        (Or.inr (Or.inr (Or.inl (mem_filterMap_thing?.mp hmem)))))
    have hsofar : ∀ child, S.graph.Child id.thing child → S.graph.Allowed S.filter child →
        o₄.Marked child ∨ (objectClass.native = true ∧
          (object.RegionHolds .dynamic child ∨ object.RegionHolds .fixed child)) := by
      intro child hchild hallowed
      rcases (hchildren child).mp hchild with htype | hshape | hmem | ⟨hnative, hslot⟩
      · exact Or.inl (hbefore hrun₄ (Or.inl htype) hallowed)
      · exact Or.inl (hbefore hrun₄ (Or.inr hshape) hallowed)
      · exact Or.inl (hhook child (mem_filterMap_thing?.mpr hmem) hallowed)
      · exact Or.inr ⟨hnative, hstored.slot_iff.mp hslot⟩
    cases hnative : objectClass.native with
    | false =>
      have hdone : o₄.Done S.toTerrain id.thing := fun child hchild hallowed =>
        (hsofar child hchild hallowed).resolve_right (by simp [hnative])
      refine ((h₄.close hdone).imp fun _ _ hload _ => ?_).head (hrun.trans hrun₄)
      exact hload.trans_le (Outline.load_run (hrun.trans hrun₄))
    | true =>
      refine (h₄.yields_openSlots hid (Outline.marked_of_run (hrun.trans hrun₄) hmarked)
        (fun region hregion child hholds => ?_) fun child hchild hallowed =>
          (hsofar child hchild hallowed).imp_right And.right).imp fun next _ hlands => ?_
      · refine (hchildren child).mpr (Or.inr (Or.inr (Or.inr ⟨hnative, hstored.slot_iff.mpr ?_⟩)))
        simp only [List.mem_cons, List.not_mem_nil, or_false] at hregion
        rcases hregion with rfl | rfl
        · exact Or.inl hholds
        · exact Or.inr hholds
      · exact (hlands.imp fun _ _ hsome hnone => absurd hnone hsome).head (hrun.trans hrun₄)

/-- An object is scanned up to the first object among its values that nobody had marked. -/
theorem Tracks.yields_scanObject {id : ObjectId} (h : S.Tracks [.fresh id.thing] [] o s)
    (hguarded : o.Guarded S.toTerrain) :
    Yields (scanObject S.graph id) s
      (fun found => S.Lands o (Found found) [] fun o' => o'.load S.graph < o.load S.graph)
      S.Overflows := by
  obtain ⟨hmarked, hhome⟩ :=
    hguarded.owner (.fresh id.thing) (by rw [h.work_cons]; exact Multiset.mem_cons_self ..)
  rw [scanObject, yields_bind]
  apply (h.yields_openObject hhome hmarked).imp
  rintro (_ | range) t ⟨o₁, hrun₁, h₁, hload⟩
  · exact ⟨o₁, hrun₁, h₁, hload rfl⟩
  · refine (h₁.yields_scanRange (hguarded.run hrun₁)).imp fun _ _ hlands => ?_
    exact (hlands.imp fun _ _ hless => hless.trans_le (Outline.load_run hrun₁)).head hrun₁

/-! Entries of the stack. -/

/-- The entry on top of the stack is worked on. -/
theorem Tracks.yields_process {entry : StackEntry} (h : S.Tracks [entry.duty] [] o s)
    (hguarded : o.Guarded S.toTerrain) (hrope : ∀ id, entry ≠ .rope id) :
    Yields (process S.graph entry) s
      (fun found => S.Lands o (Found found) [] fun o' => o'.load S.graph < o.load S.graph)
      S.Overflows := by
  obtain ⟨-, hhome⟩ :=
    hguarded.owner entry.duty (by rw [h.work_cons]; exact Multiset.mem_cons_self ..)
  cases entry with
  | object id => exact h.yields_scanObject hguarded
  | values range =>
    obtain ⟨o₁, hmove, h₁, -⟩ := h.turn [.reading range] (.read fun thing hmem =>
      Marker.waits_of_stacked (Multiset.mem_coe.mp hmem))
    have hrun₁ : S.Run o o₁ := .single hmove
    refine (h₁.yields_scanRange (hguarded.run hrun₁)).imp fun _ _ hlands => ?_
    exact (hlands.imp fun _ _ hless => hless.trans_le (Outline.load_run hrun₁)).head hrun₁
  | typeObject id =>
    rw [process, yields_bind]
    exact h.yields_scanTypeObject hhome
  | xml id =>
    rw [process, yields_bind]
    exact h.yields_scanXml hhome
  | rope id => exact absurd rfl (hrope id)

/-- A unit of work on the stack lowers the load. -/
theorem Tracks.yields_advance {found : Option ObjectId} (h : S.Tracks (Found found) [] o s)
    (hguarded : o.Guarded S.toTerrain) (hwork : found = none → s.stack.items ≠ []) :
    Yields (advance S.graph found) s
      (fun next => S.Lands o (Found next) [] fun o' => o'.load S.graph < o.load S.graph)
      S.Overflows := by
  cases found with
  | some id => exact h.yields_scanObject hguarded
  | none =>
    obtain ⟨entry, rest, hitems⟩ := List.exists_cons_of_ne_nil (hwork rfl)
    obtain ⟨plain, hplain, hropes⟩ := h.ropes
    obtain rfl : s.stack.items = plain := hplain
    rw [hitems] at hropes
    rw [advance, yields_bind]
    have hbelow : ∃ plain, rest = ([] : List StringId).map .rope ++ plain ∧
        ∀ id, .rope id ∉ plain :=
      ⟨rest, rfl, fun id hmem => hropes id (List.mem_cons_of_mem _ hmem)⟩
    apply (h.yields_popEntry hitems hbelow).imp
    intro _ t hend
    obtain ⟨rfl, -, h₁⟩ := hend
    exact h₁.yields_process hguarded fun id heq => hropes id (heq ▸ List.mem_cons_self ..)

end Setting

end MarkPhase
