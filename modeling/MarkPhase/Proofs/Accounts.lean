import MarkPhase.Proofs.Duties

/-!
The accounts of an outline. Marks stay within the territory, and only marked things
are owed or delayed. Each mark, and each delay of a thing that had been scanned
already, is paid for exactly once: by a duty to scan the thing, by a scan, by a place
on the delayed list or by a mark that was passed on.
-/

namespace MarkPhase

namespace Outline

variable {o : Outline}

@[simp]
theorem marked_mark {thing other : Thing} {color : Color} :
    (o.mark thing color).Marked other ↔ thing = other ∨ o.Marked other := by
  simp only [Marked, mark, ThingTable.isMarked, ThingTable.get_set]
  by_cases h : thing = other
  · simp [h, Shade.isMarked]
  · simp [h]

theorem isMarked_mark {thing other : Thing} {color : Color} :
    (o.mark thing color).marks.isMarked other =
      if thing = other then true else o.marks.isMarked other := by
  simp only [mark, ThingTable.isMarked, ThingTable.get_set]
  split <;> rfl

theorem Done.mark {terrain : Terrain} {thing other : Thing} {color : Color}
    (h : o.Done terrain thing) : (o.mark other color).Done terrain thing :=
  fun child hchild hallowed => marked_mark.mpr (Or.inr (h child hchild hallowed))

end Outline

variable {terrain : Terrain} {o o' : Outline}

/-! Marks and owners. -/

/-- Marks stay within the territory, and only marked things are owed, delayed or passed
a mark on. Whatever is begun has been scanned. -/
structure Outline.Placed (o : Outline) (terrain : Terrain) : Prop where
  home : ∀ thing, o.Marked thing → terrain.home thing
  owner : ∀ duty ∈ o.work, o.Marked duty.owner
  delay : ∀ entry ∈ o.delays, o.Marked entry.owner
  sensible : ∀ entry ∈ o.delays, entry.Sensible terrain.graph
  delayed : ∀ thing ∈ o.delayed, ∃ entry ∈ o.delays, entry.owner = thing
  begun : ∀ duty ∈ o.work, duty = .fresh duty.owner ∨ .scanned duty.owner ∈ o.notices
  shaded : ∀ thing ∈ o.shaded, o.Marked thing ∧ ∃ base twin cell,
    terrain.graph.baseShape? base = some cell ∧ cell.twin = some twin ∧ twin.thing = thing ∧
      .scanned base.thing ∈ o.notices

theorem StackEntry.owner_duty (entry : StackEntry) : entry.duty.owner = entry.owner := by
  cases entry <;> rfl

theorem StackEntry.Records.owner_eq {g : Graph} {entry : StackEntry} {duty : Duty}
    (h : entry.Records g duty) : duty.owner = entry.owner := by
  cases h <;> rfl

theorem StackEntry.Records.sensible {g : Graph} {entry : StackEntry} {duty : Duty}
    (h : entry.Records g duty) : entry.Sensible g := by
  cases h with
  | whole _ hrope => exact hrope
  | part => trivial

theorem StackEntry.Records.duty_eq {g : Graph} {entry : StackEntry} {duty : Duty}
    (h : entry.Records g duty) : entry.duty = duty ∨
      ∃ range, entry.duty = .stored range.inWords ∧ duty = .cut range := by
  cases h with
  | @whole entry hwhole _ =>
    left
    cases entry <;> simp_all [StackEntry.duty, StackEntry.isValues]
  | part => exact Or.inr ⟨_, rfl, rfl⟩

/-- A duty that replaces another one with the same owner, which has been scanned. -/
theorem Terrain.Turn.owner_eq {others duties : Multiset Duty} {duty : Duty}
    (h : terrain.Turn o others duty duties) :
    duty ≠ .fresh duty.owner ∧ ∀ next ∈ duties, next.owner = duty.owner := by
  cases h with
  | close => exact ⟨nofun, by simp⟩
  | spread _ hasideOwner hrangeOwner =>
    subst hasideOwner
    exact ⟨nofun, by simp [Duty.owner, hrangeOwner]⟩
  | finish => exact ⟨nofun, by simp⟩
  | read => exact ⟨nofun, by simp [Duty.owner]⟩
  | pass => exact ⟨nofun, by simp [Duty.owner, ValueRange.rest]⟩
  | drop hduty =>
    rcases hduty with rfl | rfl
    · exact ⟨nofun, by simp⟩
    · exact ⟨nofun, by simp⟩

namespace Outline.Placed

theorem mark (h : o.Placed terrain) {thing : Thing} (hhome : terrain.home thing) (color : Color) :
    (o.mark thing color).Placed terrain where
  home other hother := by
    rcases marked_mark.mp hother with rfl | hother
    · exact hhome
    · exact h.home other hother
  owner duty hduty := marked_mark.mpr (Or.inr (h.owner duty hduty))
  delay entry hentry := marked_mark.mpr (Or.inr (h.delay entry hentry))
  sensible := h.sensible
  delayed := h.delayed
  begun := h.begun
  shaded other hother :=
    ⟨marked_mark.mpr (Or.inr (h.shaded other hother).1), (h.shaded other hother).2⟩

/-- New duties of marked things, which have been scanned unless they are fresh. -/
theorem owe (h : o.Placed terrain) {work : Multiset Duty}
    (hwork : ∀ duty ∈ work, duty ∈ o.work ∨
      (o.Marked duty.owner ∧ (duty = .fresh duty.owner ∨ .scanned duty.owner ∈ o.notices))) :
    { o with work }.Placed terrain :=
  { h with
    owner := by
      intro duty hduty
      rcases hwork duty hduty with hold | hnew
      · exact h.owner duty hold
      · exact hnew.1
    begun := by
      intro duty hduty
      rcases hwork duty hduty with hold | hnew
      · exact h.begun duty hold
      · exact hnew.2 }

theorem tell (h : o.Placed terrain) (notices : List Notice) :
    { o with notices := o.notices ++ notices }.Placed terrain :=
  { h with
    begun := fun duty hduty => (h.begun duty hduty).imp_right (List.mem_append_left _)
    shaded := by
      intro thing hthing
      obtain ⟨hmarked, base, twin, cell, hbase, htwin, heq, hscanned⟩ := h.shaded thing hthing
      exact ⟨hmarked, base, twin, cell, hbase, htwin, heq, List.mem_append_left _ hscanned⟩ }

theorem refuse (h : o.Placed terrain) {entry : StackEntry} (hmarked : o.Marked entry.owner)
    (hsensible : entry.Sensible terrain.graph) : (o.refuse entry).Placed terrain := by
  have htold := h.tell [.asked entry]
  unfold Outline.refuse
  split
  · exact htold
  · exact { htold with
      delay := by
        intro other hother
        rcases List.mem_append.mp hother with hother | hother
        · exact h.delay other hother
        · rwa [List.mem_singleton.mp hother]
      sensible := by
        intro other hother
        rcases List.mem_append.mp hother with hother | hother
        · exact h.sensible other hother
        · rwa [List.mem_singleton.mp hother]
      delayed := by
        intro thing hthing
        rcases List.mem_cons.mp hthing with rfl | hthing
        · exact ⟨entry, by simp, rfl⟩
        · obtain ⟨other, hother, heq⟩ := h.delayed thing hthing
          exact ⟨other, List.mem_append_left _ hother, heq⟩ }

theorem move (h : o.Placed terrain) (hmove : terrain.Move o o') : o'.Placed terrain := by
  cases hmove with
  | @claim thing color hhome hnew =>
    refine (h.mark hhome color).owe fun duty hduty => ?_
    rcases Multiset.mem_cons.mp hduty with rfl | hduty
    · exact Or.inr ⟨marked_mark.mpr (Or.inl rfl), Or.inl rfl⟩
    · exact Or.inl hduty
  | @shade base twin cell color hbase htwin hscan hhome hnew hdone =>
    have hbegun : .scanned base.thing ∈ o.notices := by
      rcases h.begun _ hscan with hfresh | hscanned
      · cases hfresh
      · exact hscanned
    have hmark := h.mark hhome color
    exact { hmark with
      shaded := by
        intro thing hthing
        rcases List.mem_cons.mp hthing with rfl | hthing
        · exact ⟨marked_mark.mpr (Or.inl rfl), base, twin, cell, hbase, htwin, rfl, hbegun⟩
        · exact hmark.shaded thing hthing }
  | @scan thing others hwork =>
    refine (h.tell [.scanned thing]).owe fun duty hduty => ?_
    rcases Multiset.mem_cons.mp hduty with rfl | hduty
    · exact Or.inr ⟨h.owner (.fresh thing) (by simp [hwork]), Or.inr (by simp [Duty.owner])⟩
    · exact Or.inl (by simp [hwork, hduty])
  | @turn duty duties others hwork hturn =>
    have hduty : duty ∈ o.work := by simp [hwork]
    refine h.owe fun next hnext => ?_
    rcases Multiset.mem_add.mp hnext with hnext | hnext
    · have howner := hturn.owner_eq.2 next hnext
      rw [howner]
      exact Or.inr ⟨h.owner duty hduty, Or.inr ((h.begun duty hduty).resolve_left hturn.owner_eq.1)⟩
    · exact Or.inl (by simp [hwork, hnext])
  | @find range thing others color hwork hlt hhome hnew hholds hrest =>
    have hduty : .reading range ∈ o.work := by simp [hwork]
    have howner : o.Marked range.owner.thing := h.owner _ hduty
    have hbegun : .scanned range.owner.thing ∈ o.notices :=
      (h.begun _ hduty).resolve_left nofun
    refine (h.mark hhome color).owe fun duty hmem => ?_
    rcases Multiset.mem_cons.mp hmem with rfl | hmem
    · exact Or.inr ⟨marked_mark.mpr (Or.inr howner), Or.inr hbegun⟩
    · rcases Multiset.mem_cons.mp hmem with rfl | hmem
      · exact Or.inr ⟨marked_mark.mpr (Or.inl rfl), Or.inl rfl⟩
      · exact Or.inl (by simp [Outline.mark, hwork, hmem])
  | @store entry duty others hroomy hrecords hwork =>
    have hduty : duty ∈ o.work := by simp [hwork]
    refine (h.tell [.asked entry]).owe fun next hnext => ?_
    rcases Multiset.mem_cons.mp hnext with rfl | hnext
    · rcases hrecords.duty_eq with heq | ⟨range, heq, rfl⟩
      · exact Or.inl (heq ▸ hduty)
      · have howner : o.Marked range.owner.thing := h.owner _ hduty
        have hbegun : .scanned range.owner.thing ∈ o.notices :=
          (h.begun _ hduty).resolve_left nofun
        rw [heq]
        exact Or.inr ⟨howner, Or.inr (List.mem_append_left _ hbegun)⟩
    · exact Or.inl (by simp [hwork, hnext])
  | @refuse entry duty others hcalm hrecords hwork =>
    have hduty : duty ∈ o.work := by simp [hwork]
    apply (h.refuse (hrecords.owner_eq ▸ h.owner duty hduty) hrecords.sensible).owe
    intro next hnext
    left
    unfold Outline.refuse
    split <;> simp [hwork, hnext]
  | @resume thing delayed hdelayed hidle =>
    obtain ⟨entry, hentry, rfl⟩ := h.delayed thing (by simp [hdelayed])
    have howe : Outline.Placed { o with
        work := .retracing entry.owner ::ₘ o.work
        notices := o.notices ++ [.scanned entry.owner] } terrain := by
      refine (h.tell [.scanned entry.owner]).owe fun duty hduty => ?_
      rcases Multiset.mem_cons.mp hduty with rfl | hduty
      · exact Or.inr ⟨h.delay entry hentry, Or.inr (by simp [Duty.owner])⟩
      · exact Or.inl hduty
    exact { howe with
      delayed := fun other hother => h.delayed other (by simp [hdelayed, hother]) }

/-- Nothing is known of a thing that is not marked. -/
theorem of_not_marked (h : o.Placed terrain) {thing : Thing} (hnew : ¬ o.Marked thing) :
    (∀ duty ∈ o.work, duty.owner ≠ thing) ∧ (∀ entry ∈ o.delays, entry.owner ≠ thing) ∧
      thing ∉ o.delayed ∧ thing ∉ o.shaded := by
  refine ⟨fun duty hduty heq => ?_, fun entry hentry heq => ?_, fun hmem => ?_, fun hmem => ?_⟩
  · exact hnew (heq ▸ h.owner duty hduty)
  · exact hnew (heq ▸ h.delay entry hentry)
  · obtain ⟨entry, hentry, rfl⟩ := h.delayed thing hmem
    exact hnew (h.delay entry hentry)
  · exact hnew (h.shaded thing hmem).1

end Outline.Placed

/-! The account of each thing. -/

/-- Every mark of a thing, and every delay of one that had been scanned already, is paid
for exactly once: by a duty to scan it, a scan, a place on the delayed list or a mark
that was passed on. A thing that is to be scanned is new in every respect. -/
structure Outline.Counted (o : Outline) : Prop where
  account : ∀ thing, o.work.count (.fresh thing) + o.scans thing + o.delayed.count thing +
    o.shaded.count thing = (o.marks.isMarked thing).toNat + o.valueDelays thing
  once : ∀ thing, o.work.count (.fresh thing) + o.work.count (.scanning thing) ≤ 1
  fresh : ∀ thing, .fresh thing ∈ o.work →
    o.scans thing = 0 ∧ ∀ entry ∈ o.delays, entry.owner ≠ thing
  scanning : ∀ thing, .scanning thing ∈ o.work → (∀ entry ∈ o.delays, entry.owner ≠ thing) ∧
    ∀ duty ∈ o.work, ∀ range, duty.range? = some range → range.owner.thing ≠ thing

namespace Outline.Counted

theorem valueDelays_eq_zero {thing : Thing} (h : ∀ entry ∈ o.delays, entry.owner ≠ thing) :
    o.valueDelays thing = 0 := by
  unfold valueDelays
  rw [List.countP_eq_zero]
  intro entry hentry
  simp [h entry hentry]

/-- A thing that nobody has marked is marked and is to be scanned. -/
theorem enter (h : o.Counted) (hplaced : o.Placed terrain) {thing : Thing}
    (hnew : ¬ o.Marked thing) (color : Color) :
    { o.mark thing color with work := .fresh thing ::ₘ o.work }.Counted := by
  obtain ⟨hwork, hdelays, hdelayed, hshaded⟩ := hplaced.of_not_marked hnew
  have hmarks : o.marks.isMarked thing = false := by simpa [Marked] using hnew
  have hfresh : o.work.count (.fresh thing) = 0 :=
    Multiset.count_eq_zero.mpr fun hmem => hwork _ hmem rfl
  have hscanning : o.work.count (.scanning thing) = 0 :=
    Multiset.count_eq_zero.mpr fun hmem => hwork _ hmem rfl
  have hvalues : o.valueDelays thing = 0 := valueDelays_eq_zero hdelays
  have hscans : o.scans thing = 0 := by
    have haccount := h.account thing
    rw [hmarks, hvalues] at haccount
    simp only [Bool.toNat_false] at haccount
    omega
  exact {
    account := by
      intro other
      have haccount := h.account other
      change (Duty.fresh thing ::ₘ o.work).count (.fresh other) + o.scans other +
        o.delayed.count other + o.shaded.count other =
          ((o.mark thing color).marks.isMarked other).toNat + o.valueDelays other
      rw [isMarked_mark]
      by_cases heq : thing = other
      · subst heq
        rw [Multiset.count_cons_self, if_pos rfl, Bool.toNat_true]
        rw [hmarks, Bool.toNat_false] at haccount
        omega
      · rw [Multiset.count_cons_of_ne (by simpa [eq_comm] using heq), if_neg heq]
        exact haccount
    once := by
      intro other
      have honce := h.once other
      simp only [Multiset.count_cons, reduceCtorEq, if_false, Duty.fresh.injEq]
      by_cases heq : other = thing
      · subst heq
        rw [if_pos rfl]
        omega
      · rw [if_neg heq]
        omega
    fresh := by
      intro other hother
      rcases Multiset.mem_cons.mp hother with heq | hother
      · cases heq
        exact ⟨hscans, hdelays⟩
      · exact h.fresh other hother
    scanning := by
      intro other hother
      have hother : .scanning other ∈ o.work := by simpa using hother
      refine ⟨(h.scanning other hother).1, fun duty hduty range hrange => ?_⟩
      rcases Multiset.mem_cons.mp hduty with rfl | hduty
      · cases hrange
      · exact (h.scanning other hother).2 duty hduty range hrange }

/-- Other duties, as long as none is to scan a thing and no range belongs to a thing that
is being scanned. -/
theorem owe (h : o.Counted) {work : Multiset Duty}
    (hfresh : ∀ thing, work.count (.fresh thing) = o.work.count (.fresh thing))
    (hscanning : ∀ thing, work.count (.scanning thing) ≤ o.work.count (.scanning thing))
    (hranges : ∀ duty ∈ work, ∀ range, duty.range? = some range →
      (∃ old ∈ o.work, ∃ before, old.range? = some before ∧ before.owner = range.owner) ∨
        .scanning range.owner.thing ∉ work) :
    { o with work }.Counted where
  account thing := by
    have haccount := h.account thing
    rw [← hfresh] at haccount
    exact haccount
  once thing := by
    have honce := h.once thing
    have hle := hscanning thing
    rw [← hfresh] at honce
    exact le_trans (Nat.add_le_add_left hle _) honce
  fresh thing hmem := by
    apply h.fresh thing
    rwa [← Multiset.count_pos, ← hfresh, Multiset.count_pos]
  scanning thing hmem := by
    have hold : .scanning thing ∈ o.work := by
      rw [← Multiset.count_pos] at hmem ⊢
      exact lt_of_lt_of_le hmem (hscanning thing)
    refine ⟨(h.scanning thing hold).1, fun duty hduty range hrange heq => ?_⟩
    rcases hranges duty hduty range hrange with ⟨old, hmem', before, hbefore, howner⟩ | hnot
    · exact (h.scanning thing hold).2 old hmem' before hbefore (by rw [howner, heq])
    · exact hnot (heq ▸ hmem)

/-- A question changes no account. -/
theorem ask (h : o.Counted) (entry : StackEntry) :
    { o with notices := o.notices ++ [Notice.asked entry] }.Counted := by
  have hscans : ∀ thing, (o.notices ++ [Notice.asked entry]).count (.scanned thing) =
      o.scans thing := by
    intro thing
    simp [scans, List.count_append]
  exact {
    account := by
      intro thing
      have haccount := h.account thing
      rw [← hscans] at haccount
      exact haccount
    once := h.once
    fresh := by
      intro thing hmem
      have hfresh := h.fresh thing hmem
      rw [← hscans] at hfresh
      exact hfresh
    scanning := h.scanning }

/-- A duty that is not to scan a thing is dropped. -/
theorem drop (h : o.Counted) {duty : Duty} {others : Multiset Duty}
    (hwork : o.work = duty ::ₘ others) (hduty : ∀ thing, duty ≠ .fresh thing) :
    { o with work := others }.Counted := by
  refine h.owe (fun thing => ?_) (fun thing => ?_) fun next hnext range hrange => ?_
  · rw [hwork, Multiset.count_cons_of_ne (hduty thing).symm]
  · rw [hwork]
    exact Multiset.count_le_count_cons _ _ _
  · exact Or.inl ⟨next, by simp [hwork, hnext], range, hrange, rfl⟩

/-- A range of values takes the place of another one of the same object. -/
theorem replace (h : o.Counted) {duty next : Duty} {others : Multiset Duty}
    {before range : ValueRange} (hwork : o.work = duty ::ₘ others)
    (hduty : duty.range? = some before) (hnext : next.range? = some range)
    (howner : before.owner = range.owner) : { o with work := next ::ₘ others }.Counted := by
  have hcount : ∀ {other : Duty}, other.range? = none →
      (next ::ₘ others).count other = o.work.count other := by
    intro other hother
    rw [hwork, Multiset.count_cons_of_ne, Multiset.count_cons_of_ne]
    · rintro rfl
      rw [hother] at hduty
      cases hduty
    · rintro rfl
      rw [hother] at hnext
      cases hnext
  refine h.owe (fun _ => hcount rfl) (fun _ => (hcount rfl).le) fun other hother held hheld => ?_
  rcases Multiset.mem_cons.mp hother with rfl | hother
  · obtain rfl : range = held := by simpa [hnext] using hheld
    exact Or.inl ⟨duty, by simp [hwork], before, hduty, howner⟩
  · exact Or.inl ⟨other, by simp [hwork, hother], held, hheld, rfl⟩

theorem turn (h : o.Counted) {duty : Duty} {duties others : Multiset Duty}
    (hwork : o.work = duty ::ₘ others) (hturn : terrain.Turn o others duty duties) :
    { o with work := duties + others }.Counted := by
  cases hturn with
  | close =>
    rw [Multiset.zero_add]
    exact h.drop hwork nofun
  | finish =>
    rw [Multiset.zero_add]
    exact h.drop hwork nofun
  | drop hduty =>
    rw [Multiset.zero_add]
    rcases hduty with rfl | rfl
    · exact h.drop hwork nofun
    · exact h.drop hwork nofun
  | read => exact h.replace hwork rfl rfl rfl
  | pass => exact h.replace hwork rfl rfl rfl
  | @spread id aside range hquiet hasideOwner hrangeOwner =>
    have hnot : .scanning id.thing ∉ others := by
      have honce := h.once id.thing
      rw [hwork, Multiset.count_cons_self] at honce
      exact Multiset.count_eq_zero.mp (by omega)
    refine h.owe (fun thing => ?_) (fun thing => ?_) fun other hother held hheld => ?_
    · simp [hwork]
    · simp [hwork, Multiset.count_cons]
    · simp only [Multiset.insert_eq_cons, Multiset.cons_add, Multiset.singleton_add,
        Multiset.mem_cons] at hother ⊢
      rcases hother with rfl | rfl | hother
      · cases hheld
        simp [hasideOwner, hnot]
      · cases hheld
        simp [hrangeOwner, hnot]
      · exact Or.inl ⟨other, by simp [hwork, hother], held, hheld, rfl⟩

theorem shade (h : o.Counted) {thing : Thing} (hnew : ¬ o.Marked thing) (color : Color) :
    { o.mark thing color with shaded := thing :: o.shaded }.Counted := by
  have hmarks : o.marks.isMarked thing = false := by simpa [Marked] using hnew
  exact {
    account := by
      intro other
      have haccount := h.account other
      change o.work.count (.fresh other) + o.scans other + o.delayed.count other +
        (thing :: o.shaded).count other =
          ((o.mark thing color).marks.isMarked other).toNat + o.valueDelays other
      rw [isMarked_mark]
      by_cases heq : thing = other
      · subst heq
        rw [List.count_cons_self, if_pos rfl, Bool.toNat_true]
        rw [hmarks, Bool.toNat_false] at haccount
        omega
      · rw [List.count_cons_of_ne (by simpa using heq), if_neg heq]
        exact haccount
    once := h.once
    fresh := h.fresh
    scanning := h.scanning }

theorem count_scanned (notices : List Notice) (thing other : Thing) :
    (notices ++ [Notice.scanned thing]).count (.scanned other) =
      notices.count (.scanned other) + if thing = other then 1 else 0 := by
  simp [List.count_append, List.count_singleton]

/-- A thing that is to be scanned has no ranges yet. -/
theorem range_owner_ne (h : o.Counted) (hplaced : o.Placed terrain) {thing : Thing}
    (hfresh : .fresh thing ∈ o.work) :
    ∀ duty ∈ o.work, ∀ range, duty.range? = some range → range.owner.thing ≠ thing := by
  intro duty hduty range hrange heq
  have howner : duty.owner = thing := by
    rw [← heq]
    cases duty <;> cases hrange <;> rfl
  have hscanned : .scanned duty.owner ∈ o.notices := by
    refine (hplaced.begun duty hduty).resolve_left fun hdutyFresh => ?_
    rw [hdutyFresh] at hrange
    cases hrange
  rw [howner, ← List.count_pos_iff] at hscanned
  exact absurd (h.fresh thing hfresh).1 hscanned.ne'

/-- A thing that is to be scanned is scanned. -/
theorem scan (h : o.Counted) (hplaced : o.Placed terrain) {thing : Thing} {others : Multiset Duty}
    (hwork : o.work = .fresh thing ::ₘ others) :
    { o with
      work := .scanning thing ::ₘ others
      notices := o.notices ++ [Notice.scanned thing] }.Counted := by
  obtain ⟨hscans, hdelays⟩ := h.fresh thing (by simp [hwork])
  have hcount : ∀ other, o.work.count (.fresh other) =
      others.count (.fresh other) + if thing = other then 1 else 0 := by
    intro other
    simp [hwork, Multiset.count_cons, eq_comm]
  have hrange := h.range_owner_ne hplaced (by simp [hwork] : .fresh thing ∈ o.work)
  exact {
    account := by
      intro other
      have haccount := h.account other
      change (Duty.scanning thing ::ₘ others).count (.fresh other) +
        (o.notices ++ [Notice.scanned thing]).count (.scanned other) + o.delayed.count other +
        o.shaded.count other = (o.marks.isMarked other).toNat + o.valueDelays other
      rw [count_scanned, Multiset.count_cons_of_ne (by simp)]
      rw [hcount] at haccount
      change _ + o.scans other + _ + _ = _ at haccount
      unfold scans at haccount
      omega
    once := by
      intro other
      have honce := h.once other
      simp only [hwork, Multiset.count_cons, reduceCtorEq, if_false, Duty.fresh.injEq,
        Duty.scanning.injEq] at honce ⊢
      omega
    fresh := by
      intro other hother
      have hother : .fresh other ∈ others := by simpa using hother
      have hne : thing ≠ other := by
        rintro rfl
        have honce := h.once thing
        rw [hcount, if_pos rfl] at honce
        have hpos := Multiset.count_pos.mpr hother
        omega
      obtain ⟨hzero, hnone⟩ := h.fresh other (by simp [hwork, hother])
      refine ⟨?_, hnone⟩
      change (o.notices ++ [Notice.scanned thing]).count (.scanned other) = 0
      rw [count_scanned, if_neg hne]
      exact hzero
    scanning := by
      intro other hother
      refine ⟨?_, fun duty hduty range hheld => ?_⟩
      · rcases Multiset.mem_cons.mp hother with heq | hother
        · cases heq
          exact hdelays
        · exact (h.scanning other (by simp [hwork, hother])).1
      · rcases Multiset.mem_cons.mp hduty with rfl | hduty
        · cases hheld
        · have hold : duty ∈ o.work := by simp [hwork, hduty]
          rcases Multiset.mem_cons.mp hother with heq | hother
          · cases heq
            exact hrange duty hold range hheld
          · exact (h.scanning other (by simp [hwork, hother])).2 duty hold range hheld }

private theorem refuse_new (h : o.Counted) {entry : StackEntry} {duty : Duty}
    {others : Multiset Duty} (hrecords : entry.Records terrain.graph duty)
    (hwork : o.work = duty ::ₘ others)
    (hfresh : ∀ thing, .fresh thing ∈ others → entry.owner ≠ thing)
    (hscanning : ∀ thing, .scanning thing ∈ others → entry.owner ≠ thing) :
    { o with
      work := others
      notices := o.notices ++ [Notice.asked entry]
      delayed := entry.owner :: o.delayed
      delays := o.delays ++ [entry] }.Counted := by
  have hasked := h.ask entry
  have howners : ∀ {thing : Thing}, entry.owner ≠ thing → (∀ old ∈ o.delays, old.owner ≠ thing) →
      ∀ old ∈ o.delays ++ [entry], old.owner ≠ thing := by
    intro thing hne hold old hmem
    rcases List.mem_append.mp hmem with hmem | hmem
    · exact hold old hmem
    · rwa [List.mem_singleton.mp hmem]
  exact {
    account := by
      intro thing
      have haccount := hasked.account thing
      have hcount : o.work.count (.fresh thing) +
          (if entry.isValues && entry.owner == thing then 1 else 0) =
          others.count (.fresh thing) + if entry.owner = thing then 1 else 0 := by
        rw [hwork, Multiset.count_cons]
        cases hrecords with
        | whole hwhole => simp [hwhole, eq_comm]
        | part => simp [StackEntry.isValues]
      have hvalues : (o.delays ++ [entry]).countP (fun old => old.isValues && old.owner == thing) =
          o.valueDelays thing + if entry.isValues && entry.owner == thing then 1 else 0 := by
        simp [valueDelays, List.countP_append, List.countP_singleton]
      have hdelayed : (entry.owner :: o.delayed).count thing =
          o.delayed.count thing + if entry.owner = thing then 1 else 0 := by
        simp [List.count_cons]
      change others.count (.fresh thing) +
        (o.notices ++ [Notice.asked entry]).count (.scanned thing) +
        (entry.owner :: o.delayed).count thing + o.shaded.count thing =
          (o.marks.isMarked thing).toNat +
            (o.delays ++ [entry]).countP fun old => old.isValues && old.owner == thing
      change o.work.count (.fresh thing) +
        (o.notices ++ [Notice.asked entry]).count (.scanned thing) +
        o.delayed.count thing + o.shaded.count thing =
          (o.marks.isMarked thing).toNat + o.valueDelays thing at haccount
      rw [hvalues, hdelayed]
      omega
    once := by
      intro thing
      have honce := h.once thing
      simp only [hwork, Multiset.count_cons] at honce ⊢
      omega
    fresh := by
      intro thing hmem
      obtain ⟨hzero, hold⟩ := hasked.fresh thing (by simp [hwork, hmem])
      exact ⟨hzero, howners (hfresh thing hmem) hold⟩
    scanning := by
      intro thing hmem
      obtain ⟨hold, hranges⟩ := h.scanning thing (by simp [hwork, hmem])
      refine ⟨howners (hscanning thing hmem) hold, fun next hnext => ?_⟩
      exact hranges next (by simp [hwork, hnext]) }

theorem refuse (h : o.Counted) (hplaced : o.Placed terrain) {entry : StackEntry} {duty : Duty}
    {others : Multiset Duty} (hrecords : entry.Records terrain.graph duty)
    (hwork : o.work = duty ::ₘ others) : { o.refuse entry with work := others }.Counted := by
  have honce := h.once entry.owner
  unfold Outline.refuse
  split
  · rename_i hdelayed
    refine (h.ask entry).drop hwork fun thing heq => ?_
    subst heq
    obtain rfl : thing = entry.owner := hrecords.owner_eq
    obtain ⟨old, hold, howner⟩ := hplaced.delayed _ hdelayed
    exact (h.fresh _ (by simp [hwork])).2 old hold howner
  · refine h.refuse_new hrecords hwork (fun thing hmem heq => ?_) fun thing hmem heq => ?_
    · have hpos := Multiset.count_pos.mpr hmem
      cases hrecords with
      | whole =>
        rw [heq, hwork, heq, Multiset.count_cons_self] at honce
        omega
      | @part range =>
        exact h.range_owner_ne hplaced (by simp [hwork, hmem] : .fresh thing ∈ o.work)
          (.cut range) (by simp [hwork]) range rfl heq
    · have hpos := Multiset.count_pos.mpr hmem
      cases hrecords with
      | whole =>
        rw [heq, hwork, heq, Multiset.count_cons_self, Multiset.count_cons_of_ne (by simp)] at honce
        omega
      | @part range =>
        exact (h.scanning thing (by simp [hwork, hmem])).2
          (.cut range) (by simp [hwork]) range rfl heq

/-- A delayed thing that is taken up again is scanned once more. -/
theorem resume (h : o.Counted) (hplaced : o.Placed terrain) {thing : Thing} {delayed : List Thing}
    (hdelayed : o.delayed = thing :: delayed) :
    { o with
      delayed
      work := .retracing thing ::ₘ o.work
      notices := o.notices ++ [Notice.scanned thing] }.Counted := by
  obtain ⟨entry, hentry, howner⟩ := hplaced.delayed thing (by simp [hdelayed])
  exact {
    account := by
      intro other
      have haccount := h.account other
      have hcount : o.delayed.count other =
          delayed.count other + if thing = other then 1 else 0 := by
        simp [hdelayed, List.count_cons]
      change (Duty.retracing thing ::ₘ o.work).count (.fresh other) +
        (o.notices ++ [Notice.scanned thing]).count (.scanned other) + delayed.count other +
        o.shaded.count other = (o.marks.isMarked other).toNat + o.valueDelays other
      rw [count_scanned, Multiset.count_cons_of_ne (by simp)]
      unfold scans at haccount
      omega
    once := by
      intro other
      have honce := h.once other
      rwa [Multiset.count_cons_of_ne (by simp), Multiset.count_cons_of_ne (by simp)]
    fresh := by
      intro other hmem
      obtain ⟨hzero, hnone⟩ := h.fresh other (by simpa using hmem)
      refine ⟨?_, hnone⟩
      change (o.notices ++ [Notice.scanned thing]).count (.scanned other) = 0
      rw [count_scanned, if_neg fun heq => hnone entry hentry (howner.trans heq)]
      exact hzero
    scanning := by
      intro other hmem
      obtain ⟨hnone, hranges⟩ := h.scanning other (by simpa using hmem)
      refine ⟨hnone, fun duty hduty range hrange => ?_⟩
      rcases Multiset.mem_cons.mp hduty with rfl | hduty
      · cases hrange
      · exact hranges duty hduty range hrange }

theorem move (h : o.Counted) (hplaced : o.Placed terrain) (hmove : terrain.Move o o') :
    o'.Counted := by
  cases hmove with
  | @claim thing color hhome hnew => exact h.enter hplaced hnew color
  | @shade base twin cell color hbase htwin hscan hhome hnew hdone => exact h.shade hnew color
  | @scan thing others hwork => exact h.scan hplaced hwork
  | @turn duty duties others hwork hturn => exact h.turn hwork hturn
  | @find range thing others color hwork hlt hhome hnew hholds hrest => 
    have hentered := h.enter hplaced hnew color
    have hswap : ({ o.mark thing color with work := .fresh thing ::ₘ o.work } : Outline).work =
        .reading range ::ₘ .fresh thing ::ₘ others := by
      rw [hwork, Multiset.cons_swap]
    exact hentered.replace hswap rfl rfl rfl
  | @store entry duty others hroomy hrecords hwork =>
    rcases hrecords.duty_eq with heq | ⟨range, heq, rfl⟩
    · rw [heq, ← hwork]
      exact h.ask entry
    · rw [heq]
      exact (h.ask entry).replace hwork rfl rfl rfl
  | @refuse entry duty others hcalm hrecords hwork => exact h.refuse hplaced hrecords hwork
  | @resume thing delayed hdelayed hidle => exact h.resume hplaced hdelayed

end Outline.Counted

end MarkPhase
