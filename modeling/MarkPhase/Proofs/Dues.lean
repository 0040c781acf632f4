import Mathlib.Algebra.BigOperators.Group.Multiset.Basic
import Mathlib.Algebra.Order.Group.Multiset
import Mathlib.Tactic.Abel
import MarkPhase.Proofs.Changes
import MarkPhase.Proofs.Chronicles

/-!
What is due and what is done. A thing that has been shaded is due to be scanned, and with
its scan an attempt becomes due at each of its children. What is due may be in hand or on
the stack, and what has been done is in the chronicle; the sum of all three tells how often
a thing is scanned and, as long as nothing is refused, which children it tries. A move is
described by the dues that it takes in hand and by those that it leaves there; whatever
else is in hand stays as it is.
-/

namespace MarkPhase

/-- What is to be done about a thing, or has been done. -/
inductive Due
  | scan (thing : Thing)
  | attempt (parent child : Thing)
deriving DecidableEq

namespace Due

/-- The attempts at some children of a thing. For what a call reports there are none. -/
def attempts (parent : Option Thing) (children : List Thing) : Multiset Due :=
  match parent with
  | some parent => ↑(children.map (Due.attempt parent))
  | none => 0

/-- The scan of what has been found, if anything has. -/
def scanOf {kind : Kind} (found : Option (Ref kind)) : Multiset Due :=
  ↑((refThings found).map Due.scan)

@[simp]
theorem scanOf_none {kind : Kind} : scanOf (none : Option (Ref kind)) = 0 :=
  rfl

variable {parent : Option Thing}

@[simp]
theorem attempts_nil : attempts parent [] = 0 := by
  cases parent <;> rfl

theorem attempts_append (xs ys : List Thing) :
    attempts parent (xs ++ ys) = attempts parent xs + attempts parent ys := by
  cases parent with
  | none => rfl
  | some parent => simp [attempts]

theorem attempts_cons (x : Thing) (xs : List Thing) :
    attempts parent (x :: xs) = attempts parent [x] + attempts parent xs :=
  attempts_append [x] xs

@[simp]
theorem count_scan_attempts (thing : Thing) (children : List Thing) :
    (attempts parent children).count (.scan thing) = 0 := by
  cases parent with
  | none => rfl
  | some parent => simp [attempts]

theorem count_attempts {one other : Thing} (child : Thing) (children : List Thing) :
    (attempts (some one) children).count (.attempt other child) =
      if one = other then children.count child else 0 := by
  rw [attempts, Multiset.coe_count]
  by_cases heq : one = other
  · subst heq
    rw [if_pos rfl]
    exact List.count_map_of_injective _ _ (fun _ _ h => (Due.attempt.inj h).2) _
  · rw [if_neg heq, List.count_eq_zero]
    intro hmem
    obtain ⟨_, _, h⟩ := List.mem_map.mp hmem
    exact heq (Due.attempt.inj h).1

end Due

namespace Event

/-- What the event settles. -/
def dues : Event → Multiset Due
  | .scanned thing => {.scan thing}
  | .tried parent child => Due.attempts parent [child]
  | _ => 0

/-- A range of values of the thing is refused. -/
def cuts (thing : Thing) : Event → Bool
  | .refused (.values range) => decide (range.owner.thing = thing)
  | _ => false

end Event

/-- The things that the values of a region from `start` on refer to. -/
def ObjectCell.held (object : ObjectCell) (region : Region) (start count : Nat) : List Thing :=
  ((List.range' start count).map (object.regionValue region)).filterMap Value.thing?

namespace Graph

/-- The things that the values of a range refer to. -/
def held (g : Graph) (range : ValueRange) : List Thing :=
  match g.object? range.owner with
  | some object => object.held range.region range.start (range.stop - range.start)
  | none => []

/-- The children that a marker is shown of a thing. -/
def children (g : Graph) (thing : Thing) : List Thing :=
  (childVisits g true thing).filterMap Visit.thing?

end Graph

/-- What is due to be done about an entry. -/
def StackEntry.dues (g : Graph) : StackEntry → Multiset Due
  | .values range => Due.attempts (some range.owner.thing) (g.held range)
  | entry => {.scan entry.owner}

namespace Chronicle

variable {ω : Type}

/-- What has been done, and what is due because of the entries on the stack. -/
def dues (g : Graph) (c : Chronicle ω) : Multiset Due :=
  (c.events.map Event.dues).sum + (c.stack.items.map (StackEntry.dues g)).sum

def scans (c : Chronicle ω) (thing : Thing) : Nat :=
  c.events.count (.scanned thing)

/-- How often a range of values of a thing has been refused. -/
def cuts (c : Chronicle ω) (thing : Thing) : Nat :=
  c.events.countP (Event.cuts thing)

/-- The scans that are done are those in the chronicle. -/
theorem count_scan_events (c : Chronicle ω) (thing : Thing) :
    (c.events.map Event.dues).sum.count (.scan thing) = c.scans thing := by
  unfold scans
  induction c.events with
  | nil => rfl
  | cons event events ih =>
    rw [List.map_cons, List.sum_cons, Multiset.count_add, ih, List.count_cons, Nat.add_comm]
    congr 1
    cases event with
    | scanned other =>
      by_cases heq : thing = other
      · simp [heq, Event.dues]
      · simp [heq, Ne.symm heq, Event.dues]
    | _ => simp [Event.dues]

theorem scans_le (c : Chronicle ω) (g : Graph) (thing : Thing) :
    c.scans thing ≤ (c.dues g).count (.scan thing) := by
  rw [dues, Multiset.count_add, count_scan_events]
  exact Nat.le_add_right ..

end Chronicle

/-- A sound graph with the marks from which on accounts are kept. Where things are calm,
there is no work yet, and the ends of ranges are words. Within a slice no object has been
put off. -/
structure Basis where
  graph : Graph
  sound : graph.Sound
  marks : MarkTable
  calm : Prop
  words : calm → graph.WordSized
  within : Prop

namespace Basis

variable {ω : Type}

/-- The accounts of a chronicle while there are dues in hand. What is unmarked has nothing to
do with the marker; a thing is scanned or waits once, except that it waits once more for each
of its ranges that is refused; no object is forgotten; and as long as nothing is refused, the
attempts are those at the children of what has been scanned. -/
structure Balanced (B : Basis) (hand : Multiset Due) (c : Chronicle ω) : Prop where
  stack : c.stack.Tidy
  delayed : c.delayed.Tidy
  grows : ∀ thing, B.marks.isMarked thing = true → c.marks.isMarked thing = true
  fresh : ∀ thing, c.marks.isMarked thing = false →
    (hand + c.dues B.graph).count (.scan thing) = 0 ∧ thing ∉ c.delayed.things ∧
      c.cuts thing = 0
  scans : ∀ thing, B.calm ∨ B.marks.isMarked thing = false →
    (hand + c.dues B.graph).count (.scan thing) + c.delayed.things.count thing ≤ 1 + c.cuts thing
  kept : ∀ id : ObjectId, B.marks.isMarked id.thing = false → c.marks.isMarked id.thing = true →
    1 ≤ (hand + c.dues B.graph).count (.scan id.thing) + c.delayed.things.count id.thing
  attempts : B.calm → (∀ entry, .refused entry ∉ c.events) → c.delayed.things = [] ∧
    ∀ parent child, (hand + c.dues B.graph).count (.attempt parent child) =
      c.scans parent * (B.graph.children parent).count child
  within : B.within → ∀ id, .postponed id ∉ c.events
  sighted : c.sighted = true

/-- The thing has been shaded in the course of the accounts and not been scanned. -/
structure Newly (B : Basis) (thing : Thing) (c : Chronicle ω) : Prop where
  old : B.marks.isMarked thing = false
  marked : c.marks.isMarked thing = true
  notScanned : .scanned thing ∉ c.events

/-- From a state with `due` in hand, among other things, the move ends as `post` says, if it
ends; `post` is told what the other things are. -/
def Settles (B : Basis) {α : Type} (m : ChronM ω α) (due : Multiset Due)
    (post : α → Multiset Due → Chronicle ω → Prop) : Prop :=
  ∀ hand c, B.Balanced (due + hand) c → Yields m c (fun a => post a hand) fun _ _ => True

/-- The accounts are kept, and `rest` is left in hand. -/
def Left (B : Basis) {α : Type} (rest : α → Multiset Due) (a : α) (hand : Multiset Due)
    (c : Chronicle ω) : Prop :=
  B.Balanced (rest a + hand) c

/-- The accounts are kept, and nothing is left. -/
abbrev Clear (B : Basis) {α : Type} : α → Multiset Due → Chronicle ω → Prop :=
  B.Left fun _ => 0

/-- The accounts are kept, and an object is left that was found. -/
def Found (B : Basis) (found : Option ObjectId) (hand : Multiset Due) (c : Chronicle ω) : Prop :=
  B.Balanced (Due.scanOf found + hand) c ∧ ∀ id, found = some id → B.Newly id.thing c

theorem clear_iff {B : Basis} {α : Type} {a : α} {hand : Multiset Due} {c : Chronicle ω} :
    B.Clear a hand c ↔ B.Balanced hand c := by
  change B.Balanced (0 + hand) c ↔ _
  rw [zero_add]

variable {B : Basis} {α β : Type} {m n : ChronM ω α} {f : α → ChronM ω β}
variable {due more : Multiset Due} {mid : α → Multiset Due}
variable {post : α → Multiset Due → Chronicle ω → Prop}
variable {next : β → Multiset Due → Chronicle ω → Prop}

namespace Settles

protected theorem pure {a : α} {rest : α → Multiset Due} (hrest : rest a = due) :
    B.Settles (pure a : ChronM ω α) due (B.Left rest) := by
  intro hand c h
  rw [yields_pure, Left, hrest]
  exact h

protected theorem throw (fault : Fault) : B.Settles (throw fault : ChronM ω α) due post :=
  fun _ _ _ => trivial

protected theorem bind (hm : B.Settles m due (B.Left mid))
    (hf : ∀ a, B.Settles (f a) (mid a) next) : B.Settles (m >>= f) due next := by
  intro hand c h
  rw [yields_bind]
  exact (hm hand c h).imp fun a d hd => hf a hand d hd

/-- What is not taken in hand is left to the next move. -/
theorem andThen (hm : B.Settles m due (B.Left mid))
    (hf : ∀ a, B.Settles (f a) (mid a + more) next) : B.Settles (m >>= f) (due + more) next := by
  intro hand c h
  rw [yields_bind]
  rw [add_assoc] at h
  refine (hm (more + hand) c h).imp fun a d hd => hf a hand d ?_
  rw [add_assoc]
  exact hd

/-- A move that settles its dues, and one that settles the others. -/
theorem seq (hm : B.Settles m due (B.Clear)) (hf : ∀ a, B.Settles (f a) more next) :
    B.Settles (m >>= f) (due + more) next :=
  hm.andThen fun a => by
    rw [zero_add]
    exact hf a

protected theorem ite {c : Prop} [Decidable c] (hthen : c → B.Settles m due post)
    (helse : ¬ c → B.Settles n due post) : B.Settles (if c then m else n) due post :=
  fun hand s h => yields_ite (fun hc => hthen hc hand s h) fun hc => helse hc hand s h

theorem throw_bind (fault : Fault) : B.Settles (MonadExcept.throw fault >>= f) due next :=
  fun _ _ _ => yields_bind.mpr trivial

/-- A move behind a check that may fail. -/
theorem check {c : Prop} [Decidable c] {fault : Fault} (hm : ¬ c → B.Settles m due post) :
    B.Settles (if c then MonadExcept.throw fault >>= fun (_ : PUnit) => m else m) due post := by
  exact .ite (fun _ => .throw_bind fault) hm

theorem need {found : Option α} (hf : ∀ a, found = some a → B.Settles (f a) due next) :
    B.Settles (need found >>= f) due next := by
  intro hand c h
  cases found with
  | none => exact yields_bind.mpr trivial
  | some a => exact hf a rfl hand c h

end Settles

/-! The elementary moves. -/

namespace Balanced

variable {hand other : Multiset Due} {c d : Chronicle ω}

/-- Dues may pass between hand, stack and chronicle. -/
theorem pass (h : B.Balanced hand c) (hstack : d.stack.Tidy)
    (htotal : other + d.dues B.graph = hand + c.dues B.graph) (hdelayed : d.delayed = c.delayed)
    (hmarks : d.marks = c.marks) (hscans : ∀ thing, d.scans thing = c.scans thing)
    (hcuts : ∀ thing, d.cuts thing = c.cuts thing)
    (hrefused : ∀ entry, .refused entry ∈ c.events → .refused entry ∈ d.events)
    (hwithin : B.within → ∀ id, .postponed id ∈ d.events → .postponed id ∈ c.events)
    (hsighted : d.sighted = c.sighted) : B.Balanced other d where
  stack := hstack
  delayed := hdelayed ▸ h.delayed
  grows := hmarks ▸ h.grows
  fresh thing hnew := by
    rw [htotal, hdelayed, hcuts]
    exact h.fresh thing (hmarks ▸ hnew)
  scans thing hnew := by
    rw [htotal, hdelayed, hcuts]
    exact h.scans thing hnew
  kept id hnew hmarked := by
    rw [htotal, hdelayed]
    exact h.kept id hnew (hmarks ▸ hmarked)
  attempts hcalm hnone := by
    rw [htotal, hdelayed]
    simp only [hscans]
    exact h.attempts hcalm fun entry hmem => hnone entry (hrefused entry hmem)
  within hslice id hmem := h.within hslice id (hwithin hslice id hmem)
  sighted := hsighted.trans h.sighted

/-- Nothing that the accounts are about has changed. -/
theorem of_eq (h : B.Balanced hand c) (hstack : d.stack = c.stack)
    (hdelayed : d.delayed = c.delayed) (hmarks : d.marks = c.marks)
    (hevents : d.events = c.events) (hsighted : d.sighted = c.sighted) : B.Balanced hand d :=
  h.pass (hstack ▸ h.stack) (by rw [Chronicle.dues, Chronicle.dues, hstack, hevents]) hdelayed
    hmarks (fun _ => by rw [Chronicle.scans, Chronicle.scans, hevents])
    (fun _ => by rw [Chronicle.cuts, Chronicle.cuts, hevents]) (fun _ hmem => hevents ▸ hmem)
    (fun _ _ hmem => hevents ▸ hmem) hsighted

end Balanced

/-- An entry is about the scan of its owner or about some of its values. -/
private theorem count_dues (g : Graph) (entry : StackEntry) (thing : Thing) :
    (entry.dues g).count (.scan thing) + (if Event.cuts thing (.refused entry) then 1 else 0) =
      if entry.owner = thing then 1 else 0 := by
  cases entry <;>
    simp [StackEntry.dues, StackEntry.owner, Event.cuts, Multiset.count_singleton, eq_comm]

namespace Balanced

variable {hand : Multiset Due} {c : Chronicle ω} {thing : Thing}

private theorem tell (event : Event) (h : B.Balanced (event.dues + hand) c)
    (hscanned : ∀ thing, event ≠ .scanned thing) (hrefused : ∀ entry, event ≠ .refused entry)
    (hpostponed : B.within → ∀ id, event ≠ .postponed id) :
    B.Balanced hand { c with events := event :: c.events } := by
  refine h.pass h.stack ?_ rfl rfl (fun thing => ?_) (fun thing => ?_) (fun entry hmem => ?_)
    (fun hwithin id hmem => ?_) rfl
  · simp only [Chronicle.dues, List.map_cons, List.sum_cons]
    abel
  · exact List.count_cons_of_ne (hscanned thing)
  · refine List.countP_cons_of_neg ?_
    cases event with
    | refused entry => exact absurd rfl (hrefused entry)
    | _ => exact Bool.false_ne_true
  · exact List.mem_cons_of_mem _ hmem
  · exact (List.mem_cons.mp hmem).resolve_left (hpostponed hwithin id).symm

/-- A thing that has just been shaded is due to be scanned. -/
private theorem shade (h : B.Balanced hand c) (hnew : c.marks.isMarked thing = false)
    (color : Color) : B.Balanced ({.scan thing} + hand)
      { c with marks := c.marks.set thing (.marked color) } := by
  obtain ⟨hnone, hwaits, -⟩ := h.fresh thing hnew
  have hwaiting : c.delayed.things.count thing = 0 := List.count_eq_zero.mpr hwaits
  have hdues : Chronicle.dues B.graph { c with marks := c.marks.set thing (.marked color) } =
      c.dues B.graph := rfl
  have htotal : ∀ other, ({.scan thing} + hand + c.dues B.graph).count (.scan other) =
      (hand + c.dues B.graph).count (.scan other) + if thing = other then 1 else 0 := by
    intro other
    simp only [Multiset.count_add, Multiset.count_singleton, Due.scan.injEq, eq_comm]
    omega
  refine ⟨h.stack, h.delayed, fun other hother => ?_, fun other hother => ?_,
    fun other hother => ?_, fun id hid hmarked => ?_, fun hcalm hgentle => ?_, h.within, h.sighted⟩
  · exact (ThingTable.isMarked_set _ _ _ _).mpr (Or.inr (h.grows other hother))
  · have hneither := (ThingTable.isMarked_set c.marks thing other color).not.mp (by simp [hother])
    obtain ⟨hne, hunmarked⟩ := not_or.mp hneither
    rw [hdues, htotal, if_neg hne]
    exact h.fresh other (Bool.eq_false_of_not_eq_true hunmarked)
  · rw [hdues, htotal]
    by_cases heq : thing = other
    · subst heq
      rw [if_pos rfl, hnone]
      change 0 + 1 + c.delayed.things.count thing ≤ 1 + c.cuts thing
      omega
    · rw [if_neg heq]
      exact h.scans other hother
  · rw [hdues, htotal]
    by_cases heq : thing = id.thing
    · rw [if_pos heq]
      omega
    · rw [if_neg heq]
      have hcases := (ThingTable.isMarked_set c.marks thing id.thing color).mp hmarked
      exact h.kept id hid (hcases.resolve_left heq)
  · obtain ⟨hempty, hattempts⟩ := h.attempts hcalm hgentle
    refine ⟨hempty, fun parent child => ?_⟩
    rw [hdues, add_assoc, Multiset.count_add,
      Multiset.count_singleton, if_neg nofun, Nat.zero_add]
    exact hattempts parent child

/-- What is due to be scanned is marked. -/
private theorem marked_of_due (h : B.Balanced ({.scan thing} + hand) c) :
    c.marks.isMarked thing = true := by
  by_contra hnew
  have hnone := (h.fresh thing (Bool.eq_false_of_not_eq_true hnew)).1
  rw [Multiset.count_add, Multiset.count_add, Multiset.count_singleton_self] at hnone
  omega

/-- With a scan an attempt becomes due at each child. -/
private theorem scan (h : B.Balanced ({.scan thing} + hand) c) :
    B.Balanced (Due.attempts (some thing) (B.graph.children thing) + hand)
      { c with events := .scanned thing :: c.events } := by
  have hscans : ∀ other, Chronicle.scans { c with events := .scanned thing :: c.events } other =
      c.scans other + if thing = other then 1 else 0 := by
    intro other
    simp only [Chronicle.scans, List.count_cons, beq_iff_eq, Event.scanned.injEq]
  have hcuts : ∀ other, Chronicle.cuts { c with events := .scanned thing :: c.events } other =
      c.cuts other := fun other => List.countP_cons_of_neg Bool.false_ne_true
  have htotal : Due.attempts (some thing) (B.graph.children thing) + hand +
      Chronicle.dues B.graph { c with events := .scanned thing :: c.events } =
      Due.attempts (some thing) (B.graph.children thing) +
        ({.scan thing} + hand + c.dues B.graph) := by
    simp only [Chronicle.dues, List.map_cons, List.sum_cons, Event.dues]
    abel
  refine ⟨h.stack, h.delayed, h.grows, fun other hother => ?_, fun other hother => ?_,
    fun id hid hmarked => ?_, fun hcalm hgentle => ?_, fun hwithin id hmem => ?_,
    h.sighted⟩
  · rw [htotal, Multiset.count_add, Due.count_scan_attempts, Nat.zero_add, hcuts]
    exact h.fresh other hother
  · rw [htotal, Multiset.count_add, Due.count_scan_attempts, Nat.zero_add, hcuts]
    exact h.scans other hother
  · rw [htotal, Multiset.count_add, Due.count_scan_attempts, Nat.zero_add]
    exact h.kept id hid hmarked
  · obtain ⟨hempty, hattempts⟩ :=
      h.attempts hcalm fun entry hmem => hgentle entry (List.mem_cons_of_mem _ hmem)
    refine ⟨hempty, fun parent child => ?_⟩
    rw [htotal, Multiset.count_add, Due.count_attempts, hattempts parent child, hscans]
    by_cases heq : thing = parent
    · subst heq
      rw [if_pos rfl, if_pos rfl, Nat.add_mul, Nat.one_mul, Nat.add_comm]
    · rw [if_neg heq, if_neg heq, Nat.zero_add, Nat.add_zero]
  · exact h.within hwithin id ((List.mem_cons.mp hmem).resolve_left nofun)

/-- The owner of a refused entry waits instead of what was due. -/
private theorem refuse {entry : StackEntry} (h : B.Balanced (entry.dues B.graph + hand) c)
    (hmarked : c.marks.isMarked entry.owner = true) (delays : Nat) (journal : Array Record) :
    B.Balanced hand { c with
      events := .refused entry :: c.events, delays, journal
      delayed := (c.delayed.add entry.owner).2 } := by
  obtain ⟨htidy, hwaiting⟩ := h.delayed.add entry.owner
  have htotal : ∀ due, (entry.dues B.graph + hand + c.dues B.graph).count due =
      (entry.dues B.graph).count due + (hand + Chronicle.dues B.graph { c with
        events := .refused entry :: c.events, delays, journal
        delayed := (c.delayed.add entry.owner).2 }).count due := by
    intro due
    simp only [Chronicle.dues, List.map_cons, List.sum_cons, Event.dues, zero_add,
      Multiset.count_add]
    omega
  have hcuts : ∀ other, Chronicle.cuts { c with
      events := .refused entry :: c.events, delays, journal
      delayed := (c.delayed.add entry.owner).2 } other =
      c.cuts other + if Event.cuts other (.refused entry) then 1 else 0 := fun other =>
    List.countP_cons
  refine ⟨h.stack, htidy, h.grows, fun other hother => ?_, fun other hother => ?_,
    fun id hid hidMarked => ?_, fun _ hgentle => absurd (List.mem_cons_self ..) (hgentle entry),
    fun hwithin id hmem => ?_, h.sighted⟩
  · have hne : entry.owner ≠ other := by
      rintro rfl
      exact absurd hmarked (Bool.eq_false_iff.mp hother)
    obtain ⟨hnone, hwaits, hcut⟩ := h.fresh other hother
    have hcount := count_dues B.graph entry other
    rw [htotal] at hnone
    rw [if_neg hne] at hcount
    refine ⟨by omega, ?_, by rw [hcuts]; omega⟩
    rw [← List.count_eq_zero, hwaiting, if_neg hne]
    exact List.count_eq_zero.mpr hwaits
  · have hscans := h.scans other hother
    have hcount := count_dues B.graph entry other
    rw [htotal] at hscans
    rw [hcuts, hwaiting]
    by_cases heq : entry.owner = other
    · rw [if_pos heq] at hcount ⊢
      omega
    · rw [if_neg heq] at hcount ⊢
      omega
  · have hkept := h.kept id hid hidMarked
    have hcount := count_dues B.graph entry id.thing
    rw [htotal] at hkept
    rw [hwaiting]
    by_cases heq : entry.owner = id.thing
    · rw [if_pos heq]
      omega
    · rw [if_neg heq] at hcount ⊢
      omega
  · exact h.within hwithin id ((List.mem_cons.mp hmem).resolve_left nofun)

/-- The thing that waits at the front is due to be scanned when its turn comes. -/
private theorem resume (h : B.Balanced hand c) {rest : List Thing} {delayed : DelayedList}
    (hthings : c.delayed.things = thing :: rest) (hrest : delayed.things = rest)
    (htidy : delayed.Tidy) : B.Balanced ({.scan thing} + hand) { c with delayed } := by
  have hcount : ∀ other, c.delayed.things.count other =
      delayed.things.count other + if thing = other then 1 else 0 := by
    intro other
    simp only [hthings, hrest, List.count_cons, beq_iff_eq]
  have htotal : ∀ other, ({.scan thing} + hand + Chronicle.dues B.graph { c with delayed }).count
      (.scan other) = (hand + c.dues B.graph).count (.scan other) +
        if thing = other then 1 else 0 := by
    intro other
    simp only [Chronicle.dues, Multiset.count_add, Multiset.count_singleton, Due.scan.injEq,
      eq_comm]
    omega
  refine ⟨h.stack, htidy, h.grows, fun other hother => ?_, fun other hother => ?_,
    fun id hid hmarked => ?_, fun hcalm hgentle => ?_, h.within, h.sighted⟩
  · obtain ⟨hnone, hwaits, hcut⟩ := h.fresh other hother
    rw [hthings, List.mem_cons, not_or] at hwaits
    rw [htotal, if_neg (Ne.symm hwaits.1), hrest]
    exact ⟨hnone, hwaits.2, hcut⟩
  · have hscans := h.scans other hother
    rw [hcount] at hscans
    rw [htotal]
    change _ + delayed.things.count other ≤ 1 + c.cuts other
    omega
  · have hkept := h.kept id hid hmarked
    rw [hcount] at hkept
    rw [htotal]
    change 1 ≤ _ + delayed.things.count id.thing
    omega
  · have hempty := (h.attempts hcalm hgentle).1
    rw [hthings] at hempty
    cases hempty

/-- A twin is shaded and never scanned. -/
private theorem shadeTwin (h : B.Balanced hand c) (hkind : thing.kind = .baseShape)
    (hnew : c.marks.isMarked thing = false) (color : Color) :
    B.Balanced hand { c with marks := c.marks.set thing (.marked color) } := by
  refine ⟨h.stack, h.delayed, fun other hother => ?_, fun other hother => ?_, h.scans,
    fun id hid hmarked => ?_, h.attempts, h.within, h.sighted⟩
  · exact (ThingTable.isMarked_set _ _ _ _).mpr (Or.inr (h.grows other hother))
  · have hneither := (ThingTable.isMarked_set c.marks thing other color).not.mp (by simp [hother])
    exact h.fresh other (Bool.eq_false_of_not_eq_true (not_or.mp hneither).2)
  · have hcases := (ThingTable.isMarked_set c.marks thing id.thing color).mp hmarked
    refine h.kept id hid (hcases.resolve_left ?_)
    rintro rfl
    cases hkind

end Balanced

open ChronM

theorem settles_tell (event : Event) (hscanned : ∀ thing, event ≠ .scanned thing)
    (hrefused : ∀ entry, event ≠ .refused entry)
    (hpostponed : B.within → ∀ id, event ≠ .postponed id) :
    B.Settles (tell event : ChronM ω Unit) event.dues B.Clear := by
  intro hand c h
  rw [yields_tell, clear_iff]
  exact h.tell event hscanned hrefused hpostponed

/-- A move of which nothing is written down keeps the accounts if it leaves the marks, the stack
and the delayed things alone. -/
theorem settles_aside {m : MarkM ω α} (hm : ∀ s, Yields m s (fun _ t => t.stack = s.stack ∧
      t.delayed = s.delayed ∧ t.marks = s.marks) fun _ _ => True) (due : Multiset Due) :
    B.Settles (quietly m) due (B.Left fun _ => due) := by
  intro hand c h
  rw [yields_quietly]
  refine (hm c.toMarking).imp fun _ t hend => ?_
  obtain ⟨hstack, hdelayed, hmarks⟩ := hend
  exact h.of_eq hstack hdelayed hmarks rfl rfl

theorem settles_color (due : Multiset Due) :
    B.Settles (quietly MarkM.color : ChronM ω Color) due (B.Left fun _ => due) := by
  refine settles_aside (fun s => ?_) due
  rw [MarkM.color, yields_bind, yields_get, yields_pure]
  exact ⟨rfl, rfl, rfl⟩

theorem settles_look (due : Multiset Due) :
    B.Settles (quietly get : ChronM ω (Marking ω)) due (B.Left fun _ => due) :=
  settles_aside (fun _ => yields_get.mpr ⟨rfl, rfl, rfl⟩) due

theorem settles_noteScan (thing : Thing) : B.Settles (noteScan thing : ChronM ω Unit)
    {.scan thing} (B.Left fun _ => Due.attempts (some thing) (B.graph.children thing)) := by
  intro hand c h
  have hmarked : (c.sighted && c.marks.isMarked thing) = c.sighted := by
    rw [h.marked_of_due, Bool.and_true]
  have hsighted : B.Balanced ({.scan thing} + hand)
      { c with sighted := c.sighted && c.marks.isMarked thing } :=
    h.of_eq rfl rfl rfl rfl hmarked
  rw [noteScan, yields_bind, yields_sight, yields_bind, yields_tell, yields_quietly,
    MarkM.noteScan, yields_modify]
  exact hsighted.scan.of_eq rfl rfl rfl rfl rfl

/-- What is shaded has not been scanned, and its scan is due. -/
theorem yields_attempt_balanced {hand : Multiset Due} {c : Chronicle ω} {parent : Option Thing}
    {thing : Thing} (h : B.Balanced (Due.attempts parent [thing] + hand) c) (color : Color) :
    Yields (attempt B.graph parent thing color) c (fun claimed d =>
      B.Balanced ((if claimed then {.scan thing} else 0) + hand) d ∧
        (claimed = true → B.Newly thing d)) fun _ _ => True := by
  have htold := Balanced.tell (.tried parent thing) h nofun nofun nofun
  rw [attempt, yields_bind, yields_tell, yields_quietly]
  refine MarkM.yields_claim_of B.graph ⟨?_, nofun⟩ (fun _ => trivial) fun hnew => ⟨?_, fun _ => ?_⟩
  · rw [if_neg Bool.false_ne_true, zero_add]
    exact htold
  · exact htold.shade (Bool.eq_false_of_not_eq_true hnew) color
  · have hunmarked := Bool.eq_false_of_not_eq_true hnew
    have hnone := (htold.fresh thing hunmarked).1
    refine ⟨Bool.eq_false_of_not_eq_true fun hold => hnew (h.grows thing hold),
      (ThingTable.isMarked_set _ _ _ _).mpr (Or.inl rfl), fun hmem => ?_⟩
    have hpos := (List.count_pos_iff.mpr hmem).trans_le (Chronicle.scans_le
      { c with events := .tried parent thing :: c.events } B.graph thing)
    rw [Multiset.count_add] at hnone
    omega

theorem settles_attempt (parent : Option Thing) (thing : Thing) (color : Color) :
    B.Settles (attempt B.graph parent thing color : ChronM ω Bool) (Due.attempts parent [thing])
      (B.Left fun claimed => if claimed then {.scan thing} else 0) :=
  fun _ _ h => (yields_attempt_balanced h color).imp fun _ _ hend => hend.1

theorem settles_refuse (entry : StackEntry) :
    B.Settles (refuse entry : ChronM ω Unit) (entry.dues B.graph) B.Clear := by
  intro hand c h
  by_cases hmarked : c.marks.isMarked entry.owner = true
  · exact yields_refuse_of hmarked fun delays journal =>
      clear_iff.mpr (h.refuse hmarked delays journal)
  · rw [refuse, yields_bind, yields_tell, yields_quietly, MarkM.delay, yields_bind, yields_get,
      if_neg hmarked]
    trivial

/-- What is due about an entry is left to the stack, or its owner waits. -/
theorem settles_pushEntry (entry : StackEntry) :
    B.Settles (pushEntry entry : ChronM ω Unit) (entry.dues B.graph) B.Clear := by
  intro hand c h
  have hoffered : ∀ watcher : Option (Watcher ω), B.Balanced (entry.dues B.graph + hand)
      { c with events := .offered entry :: c.events, watcher } := by
    intro watcher
    have htold := Balanced.tell (.offered entry) ((zero_add (entry.dues B.graph + hand)).symm ▸ h)
      nofun nofun nofun
    exact htold.of_eq rfl rfl rfl rfl rfl
  refine yields_pushEntry_of (fun watcher => ?_) (fun watcher _ => ?_) fun _ _ _ => trivial
  · exact settles_refuse entry hand _ (hoffered watcher)
  · rw [clear_iff]
    refine (hoffered watcher).pass (h.stack.extend entry) ?_ rfl rfl (fun _ => rfl) (fun _ => rfl)
      (fun _ => id) (fun _ _ => id) rfl
    simp only [Chronicle.dues, SegmentedStack.items_notePeak, h.stack.items_extend, List.map_cons,
      List.sum_cons]
    abel

/-- What is due about the newest entry is taken in hand with it. -/
theorem settles_popEntry : B.Settles (popEntry : ChronM ω (Option StackEntry)) 0
    (B.Left fun entry => (entry.map (StackEntry.dues B.graph)).getD 0) := by
  intro hand c h
  have htold : B.Balanced hand { c with events := .taken c.stack.size :: c.events } :=
    Balanced.tell (.taken c.stack.size) h nofun nofun nofun
  obtain ⟨hfirst, hrest⟩ := h.stack.items_pop
  rw [popEntry, yields_bind, yields_quietly, yields_get, yields_bind, yields_tell, yields_quietly,
    MarkM.popEntry, yields_modifyGet]
  refine htold.pass h.stack.pop ?_ rfl rfl (fun _ => rfl) (fun _ => rfl) (fun _ => id)
    (fun _ _ => id) rfl
  simp only [Chronicle.dues, hfirst, hrest]
  cases hitems : c.stack.items with
  | nil => simp
  | cons entry rest =>
    simp only [List.head?_cons, Option.map_some, Option.getD_some, List.tail_cons, List.map_cons,
      List.sum_cons]
    abel

/-- The delayed thing whose turn it is is taken in hand. -/
theorem settles_popDelayed : B.Settles (quietly (modifyGet fun s =>
      (s.delayed.pop.1, { s with delayed := s.delayed.pop.2 })) : ChronM ω (Option Thing)) 0
    (B.Left fun thing => ↑(thing.toList.map Due.scan)) := by
  intro hand c h
  rw [zero_add] at h
  rw [yields_quietly, yields_modifyGet]
  cases hthings : c.delayed.things with
  | nil =>
    rw [DelayedList.Tidy.pop_nil hthings]
    change B.Balanced (0 + hand) c
    rwa [zero_add]
  | cons thing rest =>
    obtain ⟨hfirst, hrest, htidy⟩ := h.delayed.pop_cons hthings
    rw [hfirst]
    exact h.resume hthings hrest htidy

/-- A twin is tried and done with. -/
theorem settles_shadeTwin (id : BaseShapeId) (base : BaseShapeCell) (twin : BaseShapeId) :
    B.Settles (shadeTwin B.graph id base twin : ChronM ω Unit)
      (Due.attempts (some id.thing) [twin.thing]) B.Clear := by
  intro hand c h
  have htold := Balanced.tell (.tried (some id.thing) twin.thing) h nofun nofun nofun
  rw [shadeTwin, yields_bind, yields_tell, yields_quietly, MarkM.shadeTwin, yields_bind]
  cases B.graph.baseShape? twin with
  | none => trivial
  | some other =>
    rw [yields_need_some]
    refine yields_ite (fun _ => ?_) fun _ => trivial
    rw [MarkM.color, yields_bind, yields_bind, yields_get, yields_pure, yields_modify, clear_iff]
    by_cases hmarked : c.marks.isMarked twin.thing = true
    · rw [if_pos hmarked]
      exact htold
    · rw [if_neg hmarked]
      exact htold.shadeTwin rfl (Bool.eq_false_of_not_eq_true hmarked) c.color

end Basis

end MarkPhase
