import MarkPhase.Proofs.Deferring

/-!
What every move of an outline keeps. Besides the accounts, whatever is still to be
marked is written down somewhere: on the delayed list, as a duty of its parent, or
among the values of a range.
-/

namespace MarkPhase

variable {terrain : Terrain} {o o' : Outline}

/-! Pending work. -/

/-- The duty includes to mark `child` for the sake of `thing`. -/
def Duty.Covers (g : Graph) (duty : Duty) (thing child : Thing) : Prop :=
  duty.owner = thing ∧ ∀ range, duty.range? = some range → g.Holds range child

/-- What is written down for a thing includes to mark `child`. -/
def Outline.Awaits (o : Outline) (terrain : Terrain) (thing child : Thing) : Prop :=
  thing ∈ o.delayed ∨ ∃ duty ∈ o.work, duty.Covers terrain.graph thing child

/-- Whatever is still to be marked is written down. -/
def Outline.Pending (o : Outline) (terrain : Terrain) : Prop :=
  ∀ thing child, o.Marked thing → terrain.graph.Child thing child →
    terrain.graph.Allowed terrain.filter child → ¬ o.Marked child → o.Awaits terrain thing child

namespace Outline.Pending

theorem mark (h : o.Pending terrain) {thing : Thing} (color : Color)
    (hthing : ∀ child, terrain.graph.Child thing child →
      terrain.graph.Allowed terrain.filter child → ¬ o.Marked child →
      o.Awaits terrain thing child) :
    (o.mark thing color).Pending terrain := by
  intro other child hother hchild hallowed hnew
  have hnew : ¬ o.Marked child := fun hmarked => hnew (marked_mark.mpr (Or.inr hmarked))
  rcases marked_mark.mp hother with rfl | hother
  · exact hthing child hchild hallowed hnew
  · exact h other child hother hchild hallowed hnew

/-- Duties may change as long as none of the children still to be marked is lost. -/
theorem owe (h : o.Pending terrain) {work : Multiset Duty}
    (hwork : ∀ duty ∈ o.work, duty ∈ work ∨ ∀ child, terrain.graph.Child duty.owner child →
      terrain.graph.Allowed terrain.filter child → ¬ o.Marked child →
      duty.Covers terrain.graph duty.owner child →
      ∃ next ∈ work, next.Covers terrain.graph duty.owner child) :
    { o with work }.Pending terrain := by
  intro thing child hthing hchild hallowed hnew
  apply (h thing child hthing hchild hallowed hnew).imp_right
  intro hgiven
  obtain ⟨duty, hduty, hcovers⟩ := hgiven
  rcases hwork duty hduty with hmem | hnext
  · exact ⟨duty, hmem, hcovers⟩
  · obtain rfl := hcovers.1
    exact hnext child hchild hallowed hnew hcovers

theorem drop (h : o.Pending terrain) {duty : Duty} {others : Multiset Duty}
    (hwork : o.work = duty ::ₘ others)
    (hdone : ∀ child, terrain.graph.Child duty.owner child →
      terrain.graph.Allowed terrain.filter child → duty.Covers terrain.graph duty.owner child →
      o.Marked child) : { o with work := others }.Pending terrain := by
  refine h.owe fun other hother => ?_
  rw [hwork] at hother
  rcases Multiset.mem_cons.mp hother with rfl | hother
  · exact Or.inr fun child hchild hallowed hnew hcovers =>
      absurd (hdone child hchild hallowed hcovers) hnew
  · exact Or.inl hother

/-- A duty takes the place of another one that it covers. -/
theorem replace (h : o.Pending terrain) {duty next : Duty} {others : Multiset Duty}
    (hwork : o.work = duty ::ₘ others) (howner : next.owner = duty.owner)
    (hcovers : ∀ child, terrain.graph.Child duty.owner child →
      terrain.graph.Allowed terrain.filter child → ¬ o.Marked child →
      duty.Covers terrain.graph duty.owner child →
      ∀ range, next.range? = some range → terrain.graph.Holds range child) :
    { o with work := next ::ₘ others }.Pending terrain := by
  refine h.owe fun other hother => ?_
  rw [hwork] at hother
  rcases Multiset.mem_cons.mp hother with rfl | hother
  · exact Or.inr fun child hchild hallowed hnew hold =>
      ⟨next, Multiset.mem_cons_self .., howner, hcovers child hchild hallowed hnew hold⟩
  · exact Or.inl (Multiset.mem_cons_of_mem hother)

theorem turn (h : o.Pending terrain) {duty : Duty} {duties others : Multiset Duty}
    (hwork : o.work = duty ::ₘ others) (hturn : terrain.Turn o others duty duties) :
    { o with work := duties + others }.Pending terrain := by
  cases hturn with
  | close hdone =>
    rw [Multiset.zero_add]
    exact h.drop hwork fun child hchild hallowed _ => hdone child hchild hallowed
  | finish hdone =>
    rw [Multiset.zero_add]
    exact h.drop hwork fun child hchild hallowed _ => hdone child hchild hallowed
  | @drop _ range hduty hread =>
    rw [Multiset.zero_add]
    refine h.drop hwork fun child _ hallowed hcovers => hread child (hcovers.2 range ?_) hallowed
    rcases hduty with rfl | rfl <;> rfl
  | @read range =>
    exact h.replace hwork rfl fun child _ _ _ hcovers => hcovers.2
  | @pass range hlt hrest =>
    refine h.replace hwork rfl fun child _ hallowed hnew hcovers held hheld => ?_
    cases hheld
    exact (hrest child (hcovers.2 range rfl) hallowed).resolve_left hnew
  | @spread id aside range _ hasideOwner hrangeOwner _ _ _ hcover =>
    rw [Multiset.insert_eq_cons, Multiset.cons_add, Multiset.singleton_add]
    refine h.owe fun other hother => ?_
    rw [hwork] at hother
    rcases Multiset.mem_cons.mp hother with rfl | hother
    · refine Or.inr fun child hchild hallowed hnew _ => ?_
      rcases (hcover child hchild hallowed).resolve_left hnew with hholds | hholds
      · refine ⟨.cut aside, by simp, by simp [Duty.owner, hasideOwner], fun held hheld => ?_⟩
        cases hheld
        exact hholds
      · refine ⟨.reading range, by simp, by simp [Duty.owner, hrangeOwner], fun held hheld => ?_⟩
        cases hheld
        exact hholds
    · exact Or.inl (by simp [hother])

/-- A duty may go where its owner is on the delayed list. -/
theorem delay (h : o.Pending terrain) {duty : Duty} {others : Multiset Duty} {delayed : List Thing}
    (hwork : o.work = duty ::ₘ others) (hdelayed : ∀ thing ∈ o.delayed, thing ∈ delayed)
    (howner : duty.owner ∈ delayed) : { o with work := others, delayed }.Pending terrain := by
  intro thing child hthing hchild hallowed hnew
  rcases h thing child hthing hchild hallowed hnew with hmem | ⟨other, hother, hcovers⟩
  · exact Or.inl (hdelayed thing hmem)
  · rw [hwork] at hother
    rcases Multiset.mem_cons.mp hother with rfl | hother
    · exact Or.inl (hcovers.1 ▸ howner)
    · exact Or.inr ⟨other, hother, hcovers⟩

/-- No child is lost where the ends of ranges are words. -/
theorem move (h : o.Pending terrain) (hranged : terrain.Ranged o.work)
    (hwords : terrain.graph.WordSized) (hmove : terrain.Move o o') : o'.Pending terrain := by
  cases hmove with
  | @claim thing color =>
    have howed : { o with work := .fresh thing ::ₘ o.work }.Pending terrain :=
      h.owe fun duty hduty => Or.inl (Multiset.mem_cons_of_mem hduty)
    exact howed.mark color fun child _ _ _ =>
      Or.inr ⟨.fresh thing, Multiset.mem_cons_self .., rfl, nofun⟩
  | shade color _ _ _ _ _ hdone =>
    exact h.mark color fun child hchild hallowed hnew =>
      absurd (hdone child hchild hallowed) hnew
  | scan hwork => exact h.replace hwork rfl fun _ _ _ _ _ => nofun
  | turn hwork hturn => exact h.turn hwork hturn
  | @find range thing others color hwork hlt hhome hnew hholds hrest =>
    intro other child hother hchild hallowed hunmarked
    have hnot : ¬ (thing = child ∨ o.Marked child) := fun hor => hunmarked (marked_mark.mpr hor)
    rcases marked_mark.mp hother with rfl | hother
    · exact Or.inr ⟨.fresh thing, by simp, rfl, nofun⟩
    · have hold := h other child hother hchild hallowed fun hmarked => hnot (Or.inr hmarked)
      apply hold.imp_right
      intro hgiven
      obtain ⟨duty, hduty, hcovers⟩ := hgiven
      rw [hwork] at hduty
      rcases Multiset.mem_cons.mp hduty with rfl | hduty
      · refine ⟨.cut range.rest, by simp, hcovers.1, fun held hheld => ?_⟩
        cases hheld
        exact (hrest child (hcovers.2 range rfl)).resolve_left fun heq => hnot (Or.inl heq.symm)
      · exact ⟨duty, by simp [hduty], hcovers⟩
  | @store entry duty others hroomy hrecords hwork =>
    cases hrecords with
    | @whole entry hwhole =>
      refine h.replace hwork entry.owner_duty fun child _ _ _ _ range hrange => ?_
      cases entry with
      | values => cases hwhole
      | _ => cases hrange
    | @part saved hlt =>
      have hadmits := hranged.admits (.cut saved) (by simp [hwork]) saved rfl
      have hsame := hadmits.inWords_eq terrain.sound hwords hlt.le
      refine h.replace hwork rfl fun child _ _ _ hcovers range hrange => ?_
      cases hrange
      rw [hsame]
      exact hcovers.2 saved rfl
  | @refuse entry duty others hcalm hrecords hwork =>
    unfold Outline.refuse
    split
    · rename_i hdelayed
      exact h.delay hwork (fun _ => id) (hrecords.owner_eq ▸ hdelayed)
    · exact h.delay hwork (fun _ => List.mem_cons_of_mem _)
        (hrecords.owner_eq ▸ List.mem_cons_self ..)
  | @resume thing delayed hdelayed hidle =>
    intro other child hother hchild hallowed hnew
    rcases h other child hother hchild hallowed hnew with hmem | ⟨duty, hduty, hcovers⟩
    · rw [hdelayed] at hmem
      rcases List.mem_cons.mp hmem with rfl | hmem
      · exact Or.inr ⟨.retracing other, Multiset.mem_cons_self .., rfl, nofun⟩
      · exact Or.inl hmem
    · exact Or.inr ⟨duty, Multiset.mem_cons_of_mem hduty, hcovers⟩

end Outline.Pending

/-! The work of an outline, whatever its marks have come from. -/

/-- What there is to do concerns marked things of the territory, and ranges that may be
read. -/
structure Outline.Guarded (o : Outline) (terrain : Terrain) : Prop where
  owner : ∀ duty ∈ o.work, o.Marked duty.owner ∧ terrain.home duty.owner
  delayed : ∀ thing ∈ o.delayed, o.Marked thing ∧ terrain.home thing
  admits : ∀ duty ∈ o.work, ∀ range, duty.range? = some range → terrain.graph.Admits range

namespace Outline.Guarded

theorem mark (h : o.Guarded terrain) (thing : Thing) (color : Color) :
    (o.mark thing color).Guarded terrain where
  owner duty hduty :=
    (h.owner duty hduty).imp_left fun hold => marked_mark.mpr (Or.inr hold)
  delayed other hother :=
    (h.delayed other hother).imp_left fun hold => marked_mark.mpr (Or.inr hold)
  admits := h.admits

/-- Other duties, of owners that have duties or that have just been marked. -/
theorem owe (h : o.Guarded terrain) {work : Multiset Duty}
    (hwork : ∀ duty ∈ work, duty ∈ o.work ∨ ((o.Marked duty.owner ∧ terrain.home duty.owner) ∧
      ∀ range, duty.range? = some range → terrain.graph.Admits range)) :
    { o with work }.Guarded terrain where
  owner duty hduty := by
    rcases hwork duty hduty with hold | hnew
    · exact h.owner duty hold
    · exact hnew.1
  delayed := h.delayed
  admits duty hduty := by
    rcases hwork duty hduty with hold | hnew
    · exact h.admits duty hold
    · exact hnew.2

/-- A duty turns into others of the same owner. -/
theorem replace (h : o.Guarded terrain) {duty : Duty} (duties : Multiset Duty)
    {others : Multiset Duty} (hwork : o.work = duty ::ₘ others)
    (howner : ∀ next ∈ duties, next.owner = duty.owner)
    (hadmits : ∀ next ∈ duties, ∀ range, next.range? = some range → terrain.graph.Admits range) :
    { o with work := duties + others }.Guarded terrain := by
  refine h.owe fun next hnext => ?_
  rcases Multiset.mem_add.mp hnext with hnext | hnext
  · rw [howner next hnext]
    exact Or.inr ⟨h.owner duty (by simp [hwork]), hadmits next hnext⟩
  · exact Or.inl (by simp [hwork, hnext])

theorem turn (h : o.Guarded terrain) {duty : Duty} {duties others : Multiset Duty}
    (hwork : o.work = duty ::ₘ others) (hturn : terrain.Turn o others duty duties) :
    { o with work := duties + others }.Guarded terrain := by
  refine h.replace duties hwork hturn.owner_eq.2 ?_
  have hold := h.admits duty (by simp [hwork])
  cases hturn with
  | close => simp
  | finish => simp
  | drop => simp
  | @spread id aside range _ _ _ _ haside hrange =>
    simp only [Multiset.insert_eq_cons, Multiset.mem_cons, Multiset.mem_singleton]
    rintro next (rfl | rfl) held hheld
    · cases hheld
      exact haside
    · cases hheld
      exact hrange
  | @read range =>
    intro next hnext held hheld
    obtain rfl := Multiset.mem_singleton.mp hnext
    cases hheld
    exact hold range rfl
  | @pass range hlt =>
    intro next hnext held hheld
    obtain rfl := Multiset.mem_singleton.mp hnext
    cases hheld
    exact (hold range rfl).rest

theorem move (h : o.Guarded terrain) (hmove : terrain.Move o o') : o'.Guarded terrain := by
  cases hmove with
  | @claim thing color hhome hnew =>
    refine (h.mark thing color).owe fun duty hduty => ?_
    rcases Multiset.mem_cons.mp hduty with rfl | hduty
    · exact Or.inr ⟨⟨marked_mark.mpr (Or.inl rfl), hhome⟩, fun _ hrange => by cases hrange⟩
    · exact Or.inl hduty
  | @shade base twin cell color => exact { h.mark twin.thing color with }
  | @scan thing others hwork =>
    have hscan := h.replace {.scanning thing} hwork (by simp [Duty.owner])
      (by simp [Duty.range?])
    exact { hscan with }
  | turn hwork hturn => exact h.turn hwork hturn
  | @find range thing others color hwork hlt hhome hnew hholds hrest =>
    have hduty : .reading range ∈ o.work := by simp [hwork]
    obtain ⟨hmarked, howner⟩ := h.owner _ hduty
    refine (h.mark thing color).owe fun duty hmem => ?_
    rcases Multiset.mem_cons.mp hmem with rfl | hmem
    · refine Or.inr ⟨⟨marked_mark.mpr (Or.inr hmarked), howner⟩, fun held hheld => ?_⟩
      cases hheld
      exact (h.admits _ hduty range rfl).rest
    · rcases Multiset.mem_cons.mp hmem with rfl | hmem
      · exact Or.inr ⟨⟨marked_mark.mpr (Or.inl rfl), hhome⟩, fun _ hrange => by cases hrange⟩
      · exact Or.inl (by simp [Outline.mark, hwork, hmem])
  | @store entry duty others hroomy hrecords hwork =>
    have hstored := h.replace {entry.duty} hwork ?_ ?_
    · exact { hstored with }
    · intro next hnext
      rw [Multiset.mem_singleton.mp hnext, entry.owner_duty, hrecords.owner_eq]
    · intro next hnext range hrange
      rw [Multiset.mem_singleton.mp hnext] at hrange
      rcases hrecords.duty_eq with heq | ⟨held, heq, rfl⟩
      · exact h.admits duty (by simp [hwork]) range (heq ▸ hrange)
      · rw [heq] at hrange
        cases hrange
        exact (h.admits (.cut held) (by simp [hwork]) held rfl).inWords
  | @refuse entry duty others hcalm hrecords hwork =>
    have hduty := h.owner duty (by simp [hwork])
    have hrest := h.replace 0 hwork (by simp) (by simp)
    rw [Multiset.zero_add] at hrest
    unfold Outline.refuse
    split
    · exact { hrest with }
    · exact { hrest with
        delayed := by
          intro thing hthing
          rcases List.mem_cons.mp hthing with rfl | hthing
          · exact hrecords.owner_eq ▸ hduty
          · exact h.delayed thing hthing }
  | @resume thing delayed hdelayed hidle =>
    have hthing := h.delayed thing (by simp [hdelayed])
    have howe : Outline.Guarded { o with work := .retracing thing ::ₘ o.work } terrain := by
      refine h.owe fun duty hduty => ?_
      rcases Multiset.mem_cons.mp hduty with rfl | hduty
      · exact Or.inr ⟨hthing, fun _ hrange => by cases hrange⟩
      · exact Or.inl hduty
    exact { howe with
      delayed := fun other hother => h.delayed other (by simp [hdelayed, hother]) }

theorem run (h : o.Guarded terrain) (hrun : terrain.Run o o') : o'.Guarded terrain := by
  induction hrun with
  | refl => exact h
  | tail _ hmove ih => exact ih.move hmove

end Outline.Guarded

/-! All of it together. -/

/-- What is kept by every move. -/
structure Outline.Balanced (o : Outline) (terrain : Terrain) : Prop where
  placed : o.Placed terrain
  counted : o.Counted
  ranged : terrain.Ranged o.work
  deferred : o.Deferred terrain
  pending : terrain.graph.WordSized → o.Pending terrain

namespace Outline

theorem Balanced.move (h : o.Balanced terrain) (hmove : terrain.Move o o') :
    o'.Balanced terrain where
  placed := h.placed.move hmove
  counted := h.counted.move h.placed hmove
  ranged := h.ranged.move h.counted hmove
  deferred := h.deferred.move h.placed h.counted h.ranged hmove
  pending hwords := (h.pending hwords).move h.ranged hwords hmove

theorem Balanced.guarded (h : o.Balanced terrain) : o.Guarded terrain where
  owner duty hduty :=
    ⟨h.placed.owner duty hduty, h.placed.home _ (h.placed.owner duty hduty)⟩
  delayed thing hthing := by
    obtain ⟨entry, hentry, rfl⟩ := h.placed.delayed thing hthing
    exact ⟨h.placed.delay entry hentry, h.placed.home _ (h.placed.delay entry hentry)⟩
  admits := h.ranged.admits

theorem Balanced.run (h : o.Balanced terrain) (hrun : terrain.Run o o') : o'.Balanced terrain := by
  induction hrun with
  | refl => exact h
  | tail _ hmove ih => exact ih.move hmove

/-- When nothing is left to do, the children of marked things are marked. -/
theorem Balanced.closed (h : o.Balanced terrain) (hwords : terrain.graph.WordSized)
    (hwork : o.work = 0) (hdelayed : o.delayed = []) {parent child : Thing}
    (hparent : o.Marked parent) (hchild : terrain.graph.Child parent child)
    (hallowed : terrain.graph.Allowed terrain.filter child) : o.Marked child := by
  by_contra hnew
  rcases h.pending hwords parent child hparent hchild hallowed hnew with hmem | ⟨duty, hduty, -⟩
  · rw [hdelayed] at hmem
    cases hmem
  · rw [hwork] at hduty
    exact Multiset.notMem_zero duty hduty

/-- An outline of a state in which nothing has happened yet. -/
def start (marks : MarkTable) : Outline where
  marks
  work := 0
  delayed := []
  notices := []
  delays := []
  shaded := []

theorem balanced_start {marks : MarkTable} (hmarks : ∀ thing, marks.isMarked thing = false) :
    (start marks).Balanced terrain := by
  have hnone : ∀ thing, ¬ (start marks).Marked thing := by
    intro thing hmarked
    rw [Marked, start, hmarks thing] at hmarked
    cases hmarked
  exact {
    placed := {
      home := fun thing hmarked => absurd hmarked (hnone thing)
      owner := by simp [start]
      delay := by simp [start]
      sensible := by simp [start]
      delayed := by simp [start]
      begun := by simp [start]
      shaded := by simp [start] }
    counted := {
      account := by simp [start, scans, valueDelays, hmarks]
      once := by simp [start]
      fresh := by simp [start]
      scanning := by simp [start] }
    ranged := {
      admits := by simp [start]
      stored := by simp [start]
      nodup := by simp [start, Duty.keys] }
    deferred := {
      nodup := by simp [start]
      cut := by simp [start]
      quiet := Or.inl (by simp [start])
      settled := by simp [start]
      witnessed := by simp [start] }
    pending := fun _ thing _ hmarked => absurd hmarked (hnone thing) }

end Outline

/-! Marks only grow, and the amount of work that is left only shrinks. -/

namespace Outline

theorem marked_of_move (hmove : terrain.Move o o') {thing : Thing} (h : o.Marked thing) :
    o'.Marked thing := by
  cases hmove with
  | claim => exact marked_mark.mpr (Or.inr h)
  | shade => exact marked_mark.mpr (Or.inr h)
  | find => exact marked_mark.mpr (Or.inr h)
  | refuse =>
    unfold Outline.refuse
    split <;> exact h
  | _ => exact h

theorem marked_of_run (hrun : terrain.Run o o') {thing : Thing} (h : o.Marked thing) :
    o'.Marked thing := by
  induction hrun with
  | refl => exact h
  | tail _ hmove ih => exact marked_of_move hmove ih

end Outline

end MarkPhase
