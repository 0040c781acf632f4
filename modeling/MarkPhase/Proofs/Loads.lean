import Mathlib.Data.Finset.Card
import Mathlib.Data.Finset.Range
import MarkPhase.Proofs.Balance

/-!
The work that an outline has left. Every move leaves the load as it is or lowers it,
and the moves that end a unit of work lower it, so the units of a run are bounded by
the load it starts from.
-/

namespace MarkPhase

variable {terrain : Terrain} {o o' : Outline}

namespace Outline

/-- The number of things of the graph that nobody has marked. -/
def unmarked (o : Outline) (g : Graph) : Nat :=
  g.things.countP fun thing => !o.marks.isMarked thing

/-- The work that is left. A thing that is not marked yet stands for four units, because
it may be recorded as a whole and in two parts after that. -/
def load (o : Outline) (g : Graph) : Nat :=
  4 * o.unmarked g + (o.work.map Duty.weight).sum + o.delayed.length

theorem unmarked_le (o : Outline) (g : Graph) : o.unmarked g ≤ g.thingCount := by
  rw [← g.length_things]
  exact List.countP_le_length

/-- Before anything has happened, there are four units for each thing at most. -/
theorem load_start_le (marks : MarkTable) (g : Graph) : (start marks).load g ≤ 4 * g.thingCount :=
  Nat.mul_le_mul_left 4 ((start marks).unmarked_le g)

theorem load_cons (o : Outline) (duty : Duty) (work : Multiset Duty) (g : Graph) :
    { o with work := duty ::ₘ work }.load g = duty.weight + { o with work }.load g := by
  unfold load
  rw [Multiset.map_cons, Multiset.sum_cons]
  change 4 * o.unmarked g + (duty.weight + (work.map Duty.weight).sum) + o.delayed.length =
    duty.weight + (4 * o.unmarked g + (work.map Duty.weight).sum + o.delayed.length)
  omega

theorem load_add (o : Outline) (duties work : Multiset Duty) (g : Graph) :
    { o with work := duties + work }.load g =
      (duties.map Duty.weight).sum + { o with work }.load g := by
  induction duties using Multiset.induction_on with
  | empty => simp
  | cons duty duties ih =>
    rw [Multiset.cons_add, load_cons, ih, Multiset.map_cons, Multiset.sum_cons, Nat.add_assoc]

theorem load_work {g : Graph} {duty : Duty} {others : Multiset Duty}
    (hwork : o.work = duty ::ₘ others) :
    o.load g = duty.weight + { o with work := others }.load g := by
  rw [← load_cons, ← hwork]

theorem unmarked_mark {thing : Thing} (hhome : terrain.home thing) (hnew : ¬ o.Marked thing)
    (color : Color) :
    (o.mark thing color).unmarked terrain.graph + 1 = o.unmarked terrain.graph := by
  have hmem : thing ∈ terrain.graph.things :=
    terrain.graph.mem_things.mpr (terrain.home_allowed thing hhome).contains
  have hperm := List.perm_cons_erase hmem
  have hmarks : o.marks.isMarked thing = false := by simpa [Marked] using hnew
  have hrest : ∀ other ∈ terrain.graph.things.erase thing,
      (!(o.mark thing color).marks.isMarked other) = true ↔ (!o.marks.isMarked other) = true := by
    intro other hother
    have hne : other ≠ thing := (terrain.graph.nodup_things.mem_erase_iff.mp hother).1
    rw [isMarked_mark, if_neg hne.symm]
  unfold unmarked
  rw [hperm.countP_eq, hperm.countP_eq, List.countP_cons_of_neg, List.countP_cons_of_pos,
    List.countP_congr hrest]
  · simp [hmarks]
  · simp [isMarked_mark]

/-- A new mark takes away four units and gives those of its duties. -/
theorem load_mark {thing : Thing} (hhome : terrain.home thing) (hnew : ¬ o.Marked thing)
    (color : Color) (work : Multiset Duty) :
    { o.mark thing color with work }.load terrain.graph + 4 =
      { o with work }.load terrain.graph := by
  have hunmarked := unmarked_mark hhome hnew color
  unfold load
  change 4 * (o.mark thing color).unmarked terrain.graph + (work.map Duty.weight).sum +
    o.delayed.length + 4 = 4 * o.unmarked terrain.graph + (work.map Duty.weight).sum +
    o.delayed.length
  omega

theorem load_claim {thing : Thing} (hhome : terrain.home thing) (hnew : ¬ o.Marked thing)
    (color : Color) :
    { o.mark thing color with work := .fresh thing ::ₘ o.work }.load terrain.graph + 2 =
      o.load terrain.graph := by
  have hmark := load_mark hhome hnew color (.fresh thing ::ₘ o.work)
  have hwork : { o with work := .fresh thing ::ₘ o.work }.load terrain.graph =
      2 + o.load terrain.graph := load_cons o (.fresh thing) o.work terrain.graph
  omega

theorem load_find {range : ValueRange} {thing : Thing} {others : Multiset Duty}
    (hwork : o.work = .reading range ::ₘ others) (hhome : terrain.home thing)
    (hnew : ¬ o.Marked thing) (color : Color) :
    { o.mark thing color with
      work := .cut range.rest ::ₘ .fresh thing ::ₘ others }.load terrain.graph + 2 =
      o.load terrain.graph := by
  have hmark := load_mark hhome hnew color (.cut range.rest ::ₘ .fresh thing ::ₘ others)
  have hcut : { o with work := .cut range.rest ::ₘ .fresh thing ::ₘ others }.load terrain.graph =
      1 + { o with work := .fresh thing ::ₘ others }.load terrain.graph :=
    load_cons o (.cut range.rest) _ terrain.graph
  have hfresh : { o with work := .fresh thing ::ₘ others }.load terrain.graph =
      2 + { o with work := others }.load terrain.graph :=
    load_cons o (.fresh thing) _ terrain.graph
  have hold : o.load terrain.graph = 1 + { o with work := others }.load terrain.graph :=
    load_work hwork
  omega

end Outline

theorem StackEntry.Records.weight_le {g : Graph} {entry : StackEntry} {duty : Duty}
    (h : entry.Records g duty) : entry.duty.weight ≤ duty.weight ∧ 0 < duty.weight := by
  rcases h.duty_eq with heq | ⟨range, heq, rfl⟩
  · cases h with
    | whole => exact ⟨by rw [heq], Nat.zero_lt_two⟩
    | part => exact ⟨by rw [heq], Nat.zero_lt_one⟩
  · exact ⟨by rw [heq]; rfl, Nat.zero_lt_one⟩

namespace Outline

theorem load_turn {duty : Duty} {duties others : Multiset Duty} (hwork : o.work = duty ::ₘ others)
    (hturn : terrain.Turn o others duty duties) (g : Graph) :
    { o with work := duties + others }.load g ≤ o.load g := by
  rw [load_work hwork]
  cases hturn with
  | close => simp [load]
  | finish => simp [load]
  | drop => simp [load]
  | read => simp [load, unmarked, Duty.weight]; omega
  | pass => simp [load, unmarked, Duty.weight]; omega
  | spread => simp [load, unmarked, Duty.weight]; omega

theorem load_refuse (entry : StackEntry) (work : Multiset Duty) (g : Graph) :
    { o.refuse entry with work }.load g ≤ { o with work }.load g + 1 := by
  unfold Outline.refuse
  split
  · exact Nat.le_succ _
  · simp [load, unmarked]
    omega

theorem load_move (hmove : terrain.Move o o') :
    o'.load terrain.graph ≤ o.load terrain.graph := by
  cases hmove with
  | @claim thing color hhome hnew =>
    have hclaim := load_claim hhome hnew color
    omega
  | shade color _ _ _ hhome hnew =>
    have hmark := load_mark hhome hnew color o.work
    exact (Nat.le_add_right _ 4).trans hmark.le
  | @scan thing others hwork =>
    rw [load_work hwork]
    simp [load, unmarked, Duty.weight]
    omega
  | turn hwork hturn => exact load_turn hwork hturn _
  | @find range thing others color hwork hlt hhome hnew =>
    have hfind := load_find hwork hhome hnew color
    omega
  | @store entry duty others hroomy hrecords hwork =>
    have hweight := hrecords.weight_le.1
    rw [load_work hwork]
    simp [load, unmarked]
    omega
  | @refuse entry duty others hcalm hrecords hwork =>
    have hweight := hrecords.weight_le.2
    have hrefuse := o.load_refuse entry others terrain.graph
    rw [load_work hwork]
    omega
  | @resume thing delayed hdelayed =>
    simp [load, unmarked, hdelayed, Duty.weight]

theorem load_run (hrun : terrain.Run o o') : o'.load terrain.graph ≤ o.load terrain.graph := by
  induction hrun with
  | refl => exact Nat.le_refl _
  | tail _ hmove ih => exact (load_move hmove).trans ih

/-- The number of things of a kind that nobody has marked. -/
def unmarkedOf (o : Outline) (g : Graph) (kind : Kind) : Nat :=
  ((Finset.range (g.population kind)).filter fun index =>
    o.marks.isMarked ⟨kind, index⟩ = false).card

theorem unmarkedOf_le (o : Outline) (g : Graph) (kind : Kind) :
    o.unmarkedOf g kind ≤ g.population kind :=
  (Finset.card_filter_le _ _).trans_eq (Finset.card_range _)

section Growing

variable (hgrows : ∀ thing, o.Marked thing → o'.Marked thing)

include hgrows

theorem unmarkedOf_mono (g : Graph) (kind : Kind) : o'.unmarkedOf g kind ≤ o.unmarkedOf g kind := by
  refine Finset.card_le_card fun index hindex => ?_
  simp only [Finset.mem_filter, ← Bool.not_eq_true] at hindex ⊢
  exact ⟨hindex.1, fun hmarked => hindex.2 (hgrows _ hmarked)⟩

/-- A new mark is one of its kind. -/
theorem unmarkedOf_lt_of_new {g : Graph} {thing : Thing} (hthing : g.contains thing = true)
    (hnew : ¬ o.Marked thing) (hmarked : o'.Marked thing) :
    o'.unmarkedOf g thing.kind < o.unmarkedOf g thing.kind := by
  refine Finset.card_lt_card (Finset.ssubset_iff_of_subset ?_ |>.mpr ⟨thing.index, ?_, ?_⟩)
  · intro index hindex
    simp only [Finset.mem_filter, ← Bool.not_eq_true] at hindex ⊢
    exact ⟨hindex.1, fun hold => hindex.2 (hgrows _ hold)⟩
  · simp only [Finset.mem_filter, Finset.mem_range, ← Bool.not_eq_true]
    exact ⟨of_decide_eq_true hthing, hnew⟩
  · simp only [Finset.mem_filter, ← Bool.not_eq_true]
    exact fun hmem => hmem.2 hmarked

end Growing

theorem unmarkedOf_run (hrun : terrain.Run o o') (g : Graph) (kind : Kind) :
    o'.unmarkedOf g kind ≤ o.unmarkedOf g kind :=
  unmarkedOf_mono (fun _ => marked_of_run hrun) g kind

theorem unmarkedOf_lt (hrun : terrain.Run o o') {g : Graph} {thing : Thing}
    (hthing : g.contains thing = true) (hnew : ¬ o.Marked thing) (hmarked : o'.Marked thing) :
    o'.unmarkedOf g thing.kind < o.unmarkedOf g thing.kind :=
  unmarkedOf_lt_of_new (fun _ => marked_of_run hrun) hthing hnew hmarked

end Outline

end MarkPhase
