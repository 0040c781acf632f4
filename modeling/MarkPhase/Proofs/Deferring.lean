import MarkPhase.Proofs.Accounts

/-!
Ranges and delays. The ranges of an object lie in different regions, and what is left
of a range is cut off only for the sake of a child that nobody had marked. Therefore
nothing is delayed twice: when a thing leaves the delayed list all of its children are
marked, and none of its ranges is cut off from then on.
-/

namespace MarkPhase

variable {terrain : Terrain} {o o' : Outline}

/-! Ranges of values. -/

namespace Graph

variable {g : Graph} {range : ValueRange}

/-- What a range holds is held by every range that contains it. -/
theorem Holds.mono {wider : ValueRange} {child : Thing} (h : g.Holds range child)
    (hkey : wider.key = range.key) (hstart : wider.start ≤ range.start)
    (hstop : range.stop ≤ wider.stop) : g.Holds wider child := by
  obtain ⟨object, hobject, index, hle, hlt, hvalue⟩ := h
  obtain ⟨howner, hregion⟩ := Prod.mk.inj hkey
  exact ⟨object, howner ▸ hobject, index, hstart.trans hle, hlt.trans_le hstop, hregion ▸ hvalue⟩

namespace Admits

theorem child (h : g.Admits range) {child : Thing} (hholds : g.Holds range child) :
    g.Child range.owner.thing child :=
  h.below child (hholds.mono rfl (Nat.zero_le _) (Nat.le_refl _))

/-- A range that ends no later lies within the region as well. -/
theorem of_le {range' : ValueRange} (h : g.Admits range) (hkey : range'.key = range.key)
    (hstop : range'.stop ≤ range.stop) : g.Admits range' := by
  obtain ⟨howner, hregion⟩ := Prod.mk.inj hkey
  obtain ⟨object, hobject, hle⟩ := h.stop_le
  refine ⟨⟨object, howner ▸ hobject, hregion ▸ hstop.trans hle⟩, fun child hholds => ?_⟩
  exact howner ▸ h.below child (hholds.mono hkey.symm (Nat.le_refl _) hstop)

theorem rest (h : g.Admits range) : g.Admits range.rest :=
  h.of_le rfl (Nat.le_refl _)

/-- A range with its ends in words may end earlier and start earlier. -/
theorem inWords (h : g.Admits range) : g.Admits range.inWords :=
  h.of_le rfl (toWord_le _)

theorem inWords_eq (h : g.Admits range) (hsound : g.Sound) (hwords : g.WordSized)
    (hle : range.start ≤ range.stop) : range.inWords = range := by
  obtain ⟨object, hobject, hstop⟩ := h.stop_le
  exact hsound.inWords_eq hwords hobject hstop hle

end Admits

end Graph

/-- The objects and regions of the ranges among some duties. -/
def Duty.keys (work : Multiset Duty) : Multiset (ObjectId × Region) :=
  work.filterMap fun duty => duty.range?.map ValueRange.key

namespace Duty

theorem keys_cons_of_range {duty : Duty} {range : ValueRange} (work : Multiset Duty)
    (h : duty.range? = some range) : keys (duty ::ₘ work) = range.key ::ₘ keys work :=
  Multiset.filterMap_cons_some _ _ _ (by rw [h]; rfl)

theorem keys_cons_of_none {duty : Duty} (work : Multiset Duty) (h : duty.range? = none) :
    keys (duty ::ₘ work) = keys work :=
  Multiset.filterMap_cons_none _ _ (by rw [h]; rfl)

end Duty

/-- Ranges lie within their regions, those on the stack hold something where regions are
short, and no region has two of them. -/
structure Terrain.Ranged (terrain : Terrain) (work : Multiset Duty) : Prop where
  admits : ∀ duty ∈ work, ∀ range, duty.range? = some range → terrain.graph.Admits range
  stored : terrain.graph.WordSized → ∀ range, .stored range ∈ work → range.start < range.stop
  nodup : (Duty.keys work).Nodup

namespace Terrain.Ranged

variable {duty next : Duty} {others : Multiset Duty}

theorem tail (h : terrain.Ranged (duty ::ₘ others)) : terrain.Ranged others where
  admits next hnext := h.admits next (Multiset.mem_cons_of_mem hnext)
  stored hwords range hrange := h.stored hwords range (Multiset.mem_cons_of_mem hrange)
  nodup := by
    have hle := Multiset.filterMap_le_filterMap (fun duty => duty.range?.map ValueRange.key)
      (Multiset.le_cons_self others duty)
    exact Multiset.nodup_of_le hle h.nodup

/-- A duty without a range takes no region. -/
theorem cons_of_none (h : terrain.Ranged others) (hrange : duty.range? = none) :
    terrain.Ranged (duty ::ₘ others) where
  admits next hnext range hheld := by
    rcases Multiset.mem_cons.mp hnext with rfl | hnext
    · rw [hrange] at hheld
      cases hheld
    · exact h.admits next hnext range hheld
  stored hwords range hstored := by
    rcases Multiset.mem_cons.mp hstored with rfl | hstored
    · cases hrange
    · exact h.stored hwords range hstored
  nodup := by
    rw [Duty.keys_cons_of_none _ hrange]
    exact h.nodup

theorem cons_of_range (h : terrain.Ranged others) {range : ValueRange}
    (hrange : duty.range? = some range) (hadmits : terrain.graph.Admits range)
    (hstored : duty = .stored range → terrain.graph.WordSized → range.start < range.stop)
    (hkey : range.key ∉ Duty.keys others) : terrain.Ranged (duty ::ₘ others) where
  admits next hnext held hheld := by
    rcases Multiset.mem_cons.mp hnext with rfl | hnext
    · obtain rfl : range = held := by simpa [hrange] using hheld
      exact hadmits
    · exact h.admits next hnext held hheld
  stored hwords held hheld := by
    rcases Multiset.mem_cons.mp hheld with rfl | hheld
    · cases hrange
      exact hstored rfl hwords
    · exact h.stored hwords held hheld
  nodup := by
    rw [Duty.keys_cons_of_range _ hrange, Multiset.nodup_cons]
    exact ⟨hkey, h.nodup⟩

/-- A range of the same region takes the place of another one. -/
theorem replace (h : terrain.Ranged (duty ::ₘ others)) {before range : ValueRange}
    (hduty : duty.range? = some before) (hnext : next.range? = some range)
    (hkey : range.key = before.key) (hadmits : terrain.graph.Admits range)
    (hstored : next = .stored range → terrain.graph.WordSized → range.start < range.stop) :
    terrain.Ranged (next ::ₘ others) := by
  apply h.tail.cons_of_range hnext hadmits hstored
  have hnodup := h.nodup
  rw [Duty.keys_cons_of_range _ hduty, Multiset.nodup_cons] at hnodup
  rw [hkey]
  exact hnodup.1

theorem turn (hcounted : o.Counted) {duties : Multiset Duty} (hwork : o.work = duty ::ₘ others)
    (h : terrain.Ranged (duty ::ₘ others)) (hturn : terrain.Turn o others duty duties) :
    terrain.Ranged (duties + others) := by
  have hadmits := h.admits duty (Multiset.mem_cons_self ..)
  cases hturn with
  | close =>
    rw [Multiset.zero_add]
    exact h.tail
  | finish =>
    rw [Multiset.zero_add]
    exact h.tail
  | drop =>
    rw [Multiset.zero_add]
    exact h.tail
  | @read range => exact h.replace rfl rfl rfl (hadmits range rfl) nofun
  | @pass range hlt => exact h.replace rfl rfl rfl (hadmits range rfl).rest nofun
  | @spread id aside range hquiet hasideOwner hrangeOwner hregions haside hrange =>
    have hnone : ∀ region, (id, region) ∉ Duty.keys others := by
      intro region hmem
      obtain ⟨next, hnext, hkey⟩ := (Multiset.mem_filterMap _ _).mp hmem
      obtain ⟨held, hheld, heq⟩ := Option.map_eq_some_iff.mp hkey
      have howner : held.owner = id := congrArg Prod.fst heq
      exact (hcounted.scanning id.thing (by simp [hwork])).2 next (by simp [hwork, hnext])
        held hheld (by rw [howner])
    have hreading : terrain.Ranged (.reading range ::ₘ others) :=
      h.tail.cons_of_range rfl hrange nofun (by
        rw [ValueRange.key, hrangeOwner]
        exact hnone range.region)
    rw [Multiset.insert_eq_cons, Multiset.cons_add, Multiset.singleton_add]
    refine hreading.cons_of_range rfl haside nofun ?_
    rw [Duty.keys_cons_of_range _ rfl, Multiset.mem_cons, ValueRange.key, hasideOwner]
    intro hgiven
    rcases hgiven with heq | hmem
    · exact hregions (congrArg Prod.snd heq)
    · exact hnone aside.region hmem

theorem move (h : terrain.Ranged o.work) (hcounted : o.Counted) (hmove : terrain.Move o o') :
    terrain.Ranged o'.work := by
  cases hmove with
  | claim => exact h.cons_of_none rfl
  | shade => exact h
  | scan hwork => exact (hwork ▸ h).tail.cons_of_none rfl
  | turn hwork hturn => exact turn hcounted hwork (hwork ▸ h) hturn
  | @find range thing others color hwork hlt =>
    have hold : terrain.Ranged (.reading range ::ₘ others) := hwork ▸ h
    have hadmits := hold.admits (.reading range) (Multiset.mem_cons_self ..) range rfl
    have hcut : terrain.Ranged (.cut range.rest ::ₘ others) :=
      hold.replace rfl rfl rfl hadmits.rest nofun
    change terrain.Ranged (.cut range.rest ::ₘ .fresh thing ::ₘ others)
    rw [Multiset.cons_swap]
    exact hcut.cons_of_none rfl
  | @store entry duty others hroomy hrecords hwork =>
    have hold : terrain.Ranged (duty ::ₘ others) := hwork ▸ h
    cases hrecords with
    | @whole entry hwhole hrope =>
      have hduty : entry.duty = .fresh entry.owner := by
        cases entry with
        | values => cases hwhole
        | _ => rfl
      exact hduty ▸ hold
    | @part range hlt =>
      have hadmits := hold.admits (.cut range) (Multiset.mem_cons_self ..) range rfl
      refine hold.replace rfl rfl rfl hadmits.inWords fun _ hwords => ?_
      rw [hadmits.inWords_eq terrain.sound hwords hlt.le]
      exact hlt
  | refuse hcalm hrecords hwork => exact (hwork ▸ h).tail
  | resume => exact h.cons_of_none rfl

end Terrain.Ranged

/-! Delays. -/

/-- The duty is neither being read nor traced again. -/
def Duty.Waits : Duty → Prop
  | .retracing _ => False
  | .reading _ => False
  | .cut _ => False
  | _ => True

/-- Nothing is traced again while a range is being read. -/
def Duty.Quiet (work : Multiset Duty) : Prop :=
  (∀ thing, .retracing thing ∉ work) ∨ ∀ range, .reading range ∉ work ∧ .cut range ∉ work

namespace Duty.Quiet

theorem tail {duty : Duty} {others : Multiset Duty} (h : Quiet (duty ::ₘ others)) :
    Quiet others := by
  refine h.imp (fun hnone thing hmem => ?_) fun hidle range => ⟨fun hmem => ?_, fun hmem => ?_⟩
  · exact hnone thing (Multiset.mem_cons_of_mem hmem)
  · exact (hidle range).1 (Multiset.mem_cons_of_mem hmem)
  · exact (hidle range).2 (Multiset.mem_cons_of_mem hmem)

theorem cons {duty : Duty} {others : Multiset Duty} (h : Quiet others) (hduty : duty.Waits) :
    Quiet (duty ::ₘ others) := by
  refine h.imp (fun hnone thing hmem => ?_) fun hidle range => ⟨fun hmem => ?_, fun hmem => ?_⟩
  · rcases Multiset.mem_cons.mp hmem with rfl | hmem
    · exact hduty
    · exact hnone thing hmem
  · rcases Multiset.mem_cons.mp hmem with rfl | hmem
    · exact hduty
    · exact (hidle range).1 hmem
  · rcases Multiset.mem_cons.mp hmem with rfl | hmem
    · exact hduty
    · exact (hidle range).2 hmem

/-- While a range is being read, nothing is traced again. -/
theorem retracing_notMem {range : ValueRange} {others : Multiset Duty}
    (h : Quiet (.reading range ::ₘ others)) (thing : Thing) : .retracing thing ∉ others := by
  rcases h with hnone | hidle
  · exact fun hmem => hnone thing (Multiset.mem_cons_of_mem hmem)
  · exact absurd (Multiset.mem_cons_self ..) (hidle range).1

end Duty.Quiet

/-- Every thing is delayed once at most. A thing that has left the list owes nothing any
more, or is just being traced again. -/
structure Outline.Deferred (o : Outline) (terrain : Terrain) : Prop where
  nodup : (o.delays.map StackEntry.owner).Nodup
  cut : ∀ range, .cut range ∈ o.work → range.owner.thing ∈ o.delayed ∨
    ∀ entry ∈ o.delays, entry.owner ≠ range.owner.thing
  quiet : Duty.Quiet o.work
  settled : ∀ entry ∈ o.delays, entry.owner ∈ o.delayed ∨ .retracing entry.owner ∈ o.work ∨
    o.Done terrain entry.owner
  witnessed : ∀ range, .values range ∈ o.delays → ∃ before after,
    o.notices = before ++ .asked (.values range) :: after ∧ .scanned range.owner.thing ∈ before

namespace Outline.Deferred

theorem mark (h : o.Deferred terrain) (thing : Thing) (color : Color) :
    (o.mark thing color).Deferred terrain :=
  { h with
    settled := fun entry hentry => (h.settled entry hentry).imp_right (·.imp_right Done.mark) }

theorem tell (h : o.Deferred terrain) (notices : List Notice) :
    { o with notices := o.notices ++ notices }.Deferred terrain :=
  { h with
    witnessed := by
      intro range hrange
      obtain ⟨before, after, hnotices, hscanned⟩ := h.witnessed range hrange
      refine ⟨before, after ++ notices, ?_, hscanned⟩
      simp [hnotices] }

/-- Other duties. Those that are cut off or traced again are the old ones, unless
conditions of their own allow for them. -/
theorem owe (h : o.Deferred terrain) {work : Multiset Duty} (hquiet : Duty.Quiet work)
    (hcut : ∀ range, .cut range ∈ work → .cut range ∈ o.work ∨
      range.owner.thing ∈ o.delayed ∨ ∀ entry ∈ o.delays, entry.owner ≠ range.owner.thing)
    (hsettled : ∀ thing, .retracing thing ∈ o.work →
      .retracing thing ∈ work ∨ o.Done terrain thing) :
    { o with work }.Deferred terrain :=
  { h with
    cut := fun range hrange => (hcut range hrange).elim (h.cut range) id
    quiet := hquiet
    settled := by
      intro entry hentry
      rcases h.settled entry hentry with hdelayed | hretracing | hdone
      · exact Or.inl hdelayed
      · exact Or.inr (hsettled _ hretracing)
      · exact Or.inr (Or.inr hdone) }

theorem drop (h : o.Deferred terrain) {duty : Duty} {others : Multiset Duty}
    (hwork : o.work = duty ::ₘ others)
    (hduty : ∀ thing, duty = .retracing thing → o.Done terrain thing) :
    { o with work := others }.Deferred terrain := by
  have hquiet := h.quiet
  rw [hwork] at hquiet
  refine h.owe hquiet.tail (fun range hrange => ?_) fun thing hthing => ?_
  · exact Or.inl (by simp [hwork, hrange])
  · rw [hwork] at hthing
    rcases Multiset.mem_cons.mp hthing with heq | hmem
    · exact Or.inr (hduty thing heq.symm)
    · exact Or.inl hmem

theorem cons (h : o.Deferred terrain) {duty : Duty} (hduty : duty.Waits) :
    { o with work := duty ::ₘ o.work }.Deferred terrain := by
  refine h.owe (h.quiet.cons hduty) (fun range hrange => ?_) fun thing hthing => ?_
  · rcases Multiset.mem_cons.mp hrange with rfl | hmem
    · exact absurd hduty id
    · exact Or.inl hmem
  · exact Or.inl (Multiset.mem_cons_of_mem hthing)

/-- A range is read where nothing is traced again. -/
theorem read (h : o.Deferred terrain) {range : ValueRange}
    (hquiet : ∀ thing, .retracing thing ∉ o.work) :
    { o with work := .reading range ::ₘ o.work }.Deferred terrain := by
  refine h.owe (Or.inl fun thing hmem => ?_) (fun held hheld => ?_) fun thing hthing => ?_
  · exact hquiet thing (by simpa using hmem)
  · exact Or.inl (by simpa using hheld)
  · exact Or.inl (Multiset.mem_cons_of_mem hthing)

/-- A range is cut off whose owner is on the delayed list or has never been there. -/
theorem cutOff (h : o.Deferred terrain) {range : ValueRange}
    (hquiet : ∀ thing, .retracing thing ∉ o.work)
    (hrange : range.owner.thing ∈ o.delayed ∨ ∀ entry ∈ o.delays, entry.owner ≠ range.owner.thing) :
    { o with work := .cut range ::ₘ o.work }.Deferred terrain := by
  refine h.owe (Or.inl fun thing hmem => ?_) (fun held hheld => ?_) fun thing hthing => ?_
  · exact hquiet thing (by simpa using hmem)
  · rcases Multiset.mem_cons.mp hheld with heq | hmem
    · cases heq
      exact Or.inr hrange
    · exact Or.inl hmem
  · exact Or.inl (Multiset.mem_cons_of_mem hthing)

theorem turn (h : o.Deferred terrain) (hcounted : o.Counted) {duty : Duty}
    {duties others : Multiset Duty} (hwork : o.work = duty ::ₘ others)
    (hturn : terrain.Turn o others duty duties) :
    { o with work := duties + others }.Deferred terrain := by
  cases hturn with
  | close =>
    rw [Multiset.zero_add]
    exact h.drop hwork nofun
  | @finish thing hdone =>
    rw [Multiset.zero_add]
    refine h.drop hwork fun other heq => ?_
    cases heq
    exact hdone
  | drop hduty =>
    rw [Multiset.zero_add]
    refine h.drop hwork fun other heq => ?_
    rcases hduty with rfl | rfl <;> cases heq
  | read hquiet => exact (h.drop hwork nofun).read hquiet
  | @pass range hlt =>
    have hquiet := h.quiet
    rw [hwork] at hquiet
    exact (h.drop hwork nofun).read hquiet.retracing_notMem
  | @spread id aside range hquiet hasideOwner hrangeOwner hregions haside hrange =>
    have hnew := (hcounted.scanning id.thing (by simp [hwork])).1
    rw [Multiset.insert_eq_cons, Multiset.cons_add, Multiset.singleton_add]
    refine ((h.drop hwork nofun).read hquiet).cutOff (fun thing hmem => ?_) (Or.inr ?_)
    · exact hquiet thing (by simpa using hmem)
    · rw [hasideOwner]
      exact hnew

/-- Values are only cut off from a range when a child was still to be marked, so that
their owner cannot have left the delayed list before. -/
theorem find (h : o.Deferred terrain) (hranged : terrain.Ranged o.work) {range : ValueRange}
    {thing : Thing} {others : Multiset Duty} (hwork : o.work = .reading range ::ₘ others)
    (hhome : terrain.home thing) (hnew : ¬ o.Marked thing)
    (hholds : terrain.graph.Holds range thing) :
    { o with work := .cut range.rest ::ₘ .fresh thing ::ₘ others }.Deferred terrain := by
  have hquiet := h.quiet
  rw [hwork] at hquiet
  have hchild := (hranged.admits (.reading range) (by simp [hwork]) range rfl).child hholds
  have hfresh : (Duty.fresh thing).Waits := trivial
  refine ((h.drop hwork nofun).cons hfresh).cutOff (fun other hmem => ?_) ?_
  · exact hquiet.retracing_notMem other (by simpa using hmem)
  · by_cases hdelayed : range.owner.thing ∈ o.delayed
    · exact Or.inl hdelayed
    · refine Or.inr fun entry hentry howner => ?_
      change entry.owner = range.owner.thing at howner
      rw [← howner] at hchild hdelayed
      rcases h.settled entry hentry with hmem | hretracing | hdone
      · exact hdelayed hmem
      · apply hquiet.retracing_notMem entry.owner
        simpa [hwork] using hretracing
      · exact hnew (hdone thing hchild (terrain.home_allowed thing hhome))

theorem refuse (h : o.Deferred terrain) (hplaced : o.Placed terrain) (hcounted : o.Counted)
    {entry : StackEntry} {duty : Duty} {others : Multiset Duty}
    (hrecords : entry.Records terrain.graph duty) (hwork : o.work = duty ::ₘ others) :
    { o.refuse entry with work := others }.Deferred terrain := by
  have hdropped : Outline.Deferred { o with
      work := others
      notices := o.notices ++ [.asked entry] } terrain := by
    refine (h.tell [.asked entry]).drop hwork fun thing heq => ?_
    subst heq
    cases hrecords
  unfold Outline.refuse
  split
  · exact hdropped
  · rename_i hdelayed
    have hnew : ∀ old ∈ o.delays, old.owner ≠ entry.owner := by
      cases hrecords with
      | whole => exact (hcounted.fresh _ (by simp [hwork])).2
      | @part range => exact (h.cut range (by simp [hwork])).resolve_left hdelayed
    exact {
      nodup := by
        rw [List.map_append, List.nodup_append]
        refine ⟨h.nodup, List.nodup_singleton _, fun owner howner other hother => ?_⟩
        obtain ⟨old, hold, rfl⟩ := List.mem_map.mp howner
        rw [List.map_singleton, List.mem_singleton] at hother
        exact hother ▸ hnew old hold
      cut := by
        intro range hrange
        by_cases howner : entry.owner = range.owner.thing
        · exact Or.inl (howner ▸ List.mem_cons_self ..)
        · refine (hdropped.cut range hrange).imp (List.mem_cons_of_mem _) fun hold old hmem => ?_
          rcases List.mem_append.mp hmem with hmem | hmem
          · exact hold old hmem
          · rwa [List.mem_singleton.mp hmem]
      quiet := hdropped.quiet
      settled := by
        intro old hmem
        rcases List.mem_append.mp hmem with hmem | hmem
        · exact (hdropped.settled old hmem).imp_left (List.mem_cons_of_mem _)
        · exact Or.inl (List.mem_singleton.mp hmem ▸ List.mem_cons_self ..)
      witnessed := by
        intro range hmem
        rcases List.mem_append.mp hmem with hmem | hmem
        · exact hdropped.witnessed range hmem
        · obtain rfl := List.mem_singleton.mp hmem
          cases hrecords with
          | whole hwhole => cases hwhole
          | @part saved =>
            have hscanned : .scanned saved.owner.thing ∈ o.notices :=
              (hplaced.begun (.cut saved) (by simp [hwork])).resolve_left nofun
            exact ⟨o.notices, [], rfl, hscanned⟩ }

theorem move (h : o.Deferred terrain) (hplaced : o.Placed terrain) (hcounted : o.Counted)
    (hranged : terrain.Ranged o.work) (hmove : terrain.Move o o') : o'.Deferred terrain := by
  cases hmove with
  | @claim thing color => exact (h.mark thing color).cons trivial
  | @shade base twin cell color =>
    have hmark := h.mark twin.thing color
    exact ⟨hmark.nodup, hmark.cut, hmark.quiet, hmark.settled, hmark.witnessed⟩
  | @scan thing others hwork => exact ((h.tell [.scanned thing]).drop hwork nofun).cons trivial
  | turn hwork hturn => exact h.turn hcounted hwork hturn
  | @find range thing others color hwork hlt hhome hnew hholds =>
    exact (h.find hranged hwork hhome hnew hholds).mark thing color
  | @store entry duty others hroomy hrecords hwork =>
    have hdropped := (h.tell [.asked entry]).drop hwork fun thing heq => by
      subst heq
      cases hrecords
    cases hrecords with
    | @whole entry hwhole =>
      cases entry with
      | values => cases hwhole
      | _ => exact hdropped.cons trivial
    | part => exact hdropped.cons trivial
  | refuse hcalm hrecords hwork => exact h.refuse hplaced hcounted hrecords hwork
  | @resume thing delayed hdelayed hidle =>
    have htold := h.tell [.scanned thing]
    exact {
      nodup := h.nodup
      cut := fun range hrange => absurd (by simpa using hrange) (hidle range).2
      quiet := Or.inr fun range => by simpa using hidle range
      settled := by
        intro entry hentry
        rcases h.settled entry hentry with hmem | hretracing | hdone
        · rw [hdelayed] at hmem
          rcases List.mem_cons.mp hmem with heq | hmem
          · exact Or.inr (Or.inl (heq ▸ Multiset.mem_cons_self ..))
          · exact Or.inl hmem
        · exact Or.inr (Or.inl (Multiset.mem_cons_of_mem hretracing))
        · exact Or.inr (Or.inr hdone)
      witnessed := htold.witnessed }

end Outline.Deferred

end MarkPhase
