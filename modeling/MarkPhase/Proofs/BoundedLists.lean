import Mathlib.Order.Nat
import MarkPhase.Proofs.Segments

/-!
The segmented stack next to a plain list with a bound. The same calls are made on both
from the moment they are made. They give the same answers, so that neither the size of a
segment nor the size of the cache can be told from outside, as long as a segment fits
memory. Without room for a segment a stack cannot take its first item.
-/

namespace MarkPhase

/-- A call that a stack may be given. -/
inductive StackCall (α : Type)
  | push (item : α)
  | pop
  | top
  | size
  | isEmpty
  | isFull
  | setMaximum (maximum : Nat)
  | resetPeak
  | peak
  | clear (dropCache : Bool)
deriving DecidableEq

/-- What a call answers. An item that is not taken is handed back. -/
inductive StackAnswer (α : Type)
  | done
  | refused (item : α)
  | item (item : Option α)
  | number (value : Nat)
  | truth (value : Bool)
deriving DecidableEq

/-- A list with a bound. It remembers how long it has been since it was made or since its
peak was last reset. -/
structure BoundedList (α : Type) where
  bound : Nat
  /-- The newest item first. -/
  items : List α := []
  sizes : List Nat := [0]

namespace BoundedList

variable {α : Type}

def make (maximum : Nat) : BoundedList α :=
  { bound := SegmentedStack.boundOf maximum }

/-- The greatest length that is remembered. -/
def peak (list : BoundedList α) : Nat :=
  list.sizes.foldr max 0

def reply (list : BoundedList α) : StackCall α → StackAnswer α
  | .push item => if list.items.length < list.bound then .done else .refused item
  | .pop => .item list.items.head?
  | .top => .item list.items.head?
  | .size => .number list.items.length
  | .isEmpty => .truth list.items.isEmpty
  | .isFull => .truth (decide (list.bound ≤ list.items.length))
  | .peak => .number list.peak
  | .setMaximum _ => .done
  | .resetPeak => .done
  | .clear _ => .done

/-- What a call makes of the list, apart from what is remembered of its length. -/
def change (list : BoundedList α) : StackCall α → BoundedList α
  | .push item =>
    if list.items.length < list.bound then { list with items := item :: list.items } else list
  | .pop => { list with items := list.items.tail }
  | .setMaximum maximum => { list with bound := SegmentedStack.boundOf maximum }
  | .resetPeak => { list with sizes := [] }
  | .clear _ => { list with items := [] }
  | _ => list

def remember (list : BoundedList α) : BoundedList α :=
  { list with sizes := list.items.length :: list.sizes }

def after (list : BoundedList α) (call : StackCall α) : BoundedList α :=
  (list.change call).remember

/-- The answers to calls made one after the other, and the list they leave. -/
def run (list : BoundedList α) : List (StackCall α) → List (StackAnswer α) × BoundedList α
  | [] => ([], list)
  | call :: calls =>
    let (answers, last) := (list.after call).run calls
    (list.reply call :: answers, last)

/-- Neither the list nor its peak is above the bound. -/
def Within (list : BoundedList α) : Prop :=
  list.items.length ≤ list.bound ∧ list.peak ≤ list.bound

theorem within_make (maximum : Nat) : (make maximum : BoundedList α).Within :=
  ⟨Nat.zero_le _, Nat.zero_le _⟩

private theorem within_remember {bound : Nat} (list : BoundedList α)
    (h : list.bound = bound ∧ list.items.length ≤ bound ∧ list.peak ≤ bound) :
    list.remember.Within ∧ list.remember.bound = bound := by
  obtain ⟨rfl, hlength, hpeak⟩ := h
  exact ⟨⟨hlength, Nat.max_le.mpr ⟨hlength, hpeak⟩⟩, rfl⟩

/-- A call that leaves the bound alone keeps the list within it. -/
theorem Within.after {list : BoundedList α} (h : list.Within) (call : StackCall α)
    (hcall : ∀ maximum, call ≠ .setMaximum maximum) :
    (list.after call).Within ∧ (list.after call).bound = list.bound := by
  obtain ⟨hitems, hpeak⟩ := h
  refine within_remember (list.change call) ?_
  cases call with
  | push item =>
    by_cases hroom : list.items.length < list.bound
    · rw [change, if_pos hroom]
      exact ⟨rfl, hroom, hpeak⟩
    · rw [change, if_neg hroom]
      exact ⟨rfl, hitems, hpeak⟩
  | pop =>
    have htail : list.items.tail.length ≤ list.bound := by
      rw [List.length_tail]
      omega
    exact ⟨rfl, htail, hpeak⟩
  | setMaximum maximum => exact absurd rfl (hcall maximum)
  | resetPeak => exact ⟨rfl, hitems, Nat.zero_le _⟩
  | clear dropCache => exact ⟨rfl, Nat.zero_le _, hpeak⟩
  | _ => exact ⟨rfl, hitems, hpeak⟩

theorem Within.run {list : BoundedList α} (h : list.Within) {calls : List (StackCall α)}
    (hcalls : ∀ maximum, .setMaximum maximum ∉ calls) :
    (list.run calls).2.Within ∧ (list.run calls).2.bound = list.bound := by
  induction calls generalizing list with
  | nil => exact ⟨h, rfl⟩
  | cons call calls ih =>
    obtain ⟨hafter, hbound⟩ := h.after call fun maximum heq =>
      hcalls maximum (heq ▸ List.mem_cons_self ..)
    obtain ⟨hlast, hlastBound⟩ := ih hafter fun maximum hmem =>
      hcalls maximum (List.mem_cons_of_mem _ hmem)
    exact ⟨hlast, hlastBound.trans hbound⟩

end BoundedList

namespace SegmentedStack

variable {α : Type}

/-- Makes a call on the stack. -/
def answer (stack : SegmentedStack α) :
    StackCall α → Except Fault (StackAnswer α × SegmentedStack α)
  | .push item => do
    let (taken, stack) ← stack.push item
    return (if taken then .done else .refused item, stack)
  | .pop => return (.item stack.pop.1, stack.pop.2)
  | .top => return (.item stack.top?, stack)
  | .size => return (.number stack.size, stack)
  | .isEmpty => return (.truth stack.isEmpty, stack)
  | .isFull => return (.truth stack.isFull, stack)
  | .setMaximum maximum => return (.done, stack.setMaximum maximum)
  | .resetPeak => return (.done, stack.resetPeak)
  | .peak => return (.number stack.peak, stack)
  | .clear dropCache => return (.done, stack.clear dropCache)

/-- Makes calls one after the other. -/
def run (stack : SegmentedStack α) :
    List (StackCall α) → Except Fault (List (StackAnswer α) × SegmentedStack α)
  | [] => return ([], stack)
  | call :: calls => do
    let (first, stack) ← stack.answer call
    let (others, last) ← stack.run calls
    return (first :: others, last)

/-- The stack holds what the list holds, under the same bound and with the same peak. -/
structure Represents (stack : SegmentedStack α) (list : BoundedList α) : Prop where
  tidy : stack.Tidy
  items : stack.items = list.items
  bound : stack.maxSize = list.bound
  peak : stack.peak = list.peak

/-- The sizes that a stack is made with and keeps. -/
structure Keeps (stack : SegmentedStack α) (itemBytes segmentSize maxCached : Nat) : Prop where
  itemBytes : stack.itemBytes = itemBytes
  segmentSize : stack.segmentSize = segmentSize
  maxCached : stack.maxCached = maxCached

section Calls

variable {itemBytes segmentSize maxCached : Nat} {stack : SegmentedStack α}
  {list : BoundedList α}

theorem Represents.size_eq (h : stack.Represents list) : stack.size = list.items.length := by
  rw [h.tidy.size_eq, h.items]

/-- The peak stays as long as the list does not get longer. -/
private theorem Represents.peak_eq_max (h : stack.Represents list) {size : Nat}
    (hsize : size ≤ list.items.length) : stack.peak = max size list.peak := by
  have hle := h.tidy.size_le_peak
  rw [h.size_eq, h.peak] at hle
  rw [h.peak, Nat.max_eq_right (hsize.trans hle)]

/-- What is looked at counts towards the peak. -/
private theorem Represents.remember (h : stack.Represents list) : stack.Represents list.remember :=
  { h with peak := h.peak_eq_max (Nat.le_refl _) }

/-- The stack takes an item where the list does. -/
private theorem Represents.answer_push (h : stack.Represents list)
    (hkeeps : stack.Keeps itemBytes segmentSize maxCached)
    (hfits : fitsMemory segmentSize itemBytes = true) (item : α) :
    ∃ next, stack.answer (.push item) = .ok (list.reply (.push item), next) ∧
      next.Represents (list.after (.push item)) ∧
      next.Keeps itemBytes segmentSize maxCached := by
  by_cases hroom : list.items.length < list.bound
  · have hadmits : stack.admits = .ok true := by
      rw [admits_eq_true_iff, h.size_eq, h.bound, hkeeps.segmentSize, hkeeps.itemBytes]
      exact ⟨hroom, hfits⟩
    refine ⟨(stack.extend item).notePeak, ?_, ?_, ?_⟩
    · simp only [answer, push, hadmits, BoundedList.reply, if_pos hroom]
      rfl
    · simp only [BoundedList.after, BoundedList.change, if_pos hroom]
      exact {
        tidy := h.tidy.extend item
        items := by rw [items_notePeak, h.tidy.items_extend, h.items]; rfl
        bound := (stack.maxSize_extend item).trans h.bound
        peak := by
          simp only [notePeak, peak_extend, h.tidy.size_extend, h.size_eq, h.peak]
          exact Nat.max_comm _ _ }
    · exact ⟨(stack.itemBytes_extend item).trans hkeeps.itemBytes,
        (stack.segmentSize_extend item).trans hkeeps.segmentSize,
        (stack.maxCached_extend item).trans hkeeps.maxCached⟩
  · have hadmits : stack.admits = .ok false := by
      rw [admits, isFull, h.size_eq, h.bound]
      simp [Nat.not_lt.mp hroom]
    refine ⟨stack, ?_, ?_, hkeeps⟩
    · simp only [answer, push, hadmits, BoundedList.reply, if_neg hroom]
      rfl
    · simpa only [BoundedList.after, BoundedList.change, if_neg hroom] using h.remember

/-- The stack gives up the item that the list does. -/
private theorem Represents.answer_pop (h : stack.Represents list)
    (hkeeps : stack.Keeps itemBytes segmentSize maxCached) :
    ∃ next, stack.answer .pop = .ok (list.reply .pop, next) ∧
      next.Represents (list.after .pop) ∧ next.Keeps itemBytes segmentSize maxCached := by
  obtain ⟨hsegmentSize, hitemBytes, hmaxSize, hpeak⟩ := stack.settings_pop
  obtain ⟨hitem, hitems⟩ := h.tidy.items_pop
  have hshorter : list.items.tail.length ≤ list.items.length := by
    rw [List.length_tail]
    exact Nat.sub_le ..
  refine ⟨stack.pop.2, ?_, ?_, ?_⟩
  · rw [SegmentedStack.answer, hitem, h.items]
    rfl
  · exact {
      tidy := h.tidy.pop
      items := hitems.trans (congrArg List.tail h.items)
      bound := hmaxSize.trans h.bound
      peak := hpeak.trans (h.peak_eq_max hshorter) }
  · exact ⟨hitemBytes.trans hkeeps.itemBytes, hsegmentSize.trans hkeeps.segmentSize,
      stack.maxCached_pop.trans hkeeps.maxCached⟩

/-- The stack is emptied as the list is. -/
private theorem Represents.answer_clear (h : stack.Represents list)
    (hkeeps : stack.Keeps itemBytes segmentSize maxCached) (dropCache : Bool) :
    ∃ next, stack.answer (.clear dropCache) = .ok (list.reply (.clear dropCache), next) ∧
      next.Represents (list.after (.clear dropCache)) ∧
      next.Keeps itemBytes segmentSize maxCached := by
  obtain ⟨hsegmentSize, hitemBytes, hmaxSize, hmaxCached, hpeak⟩ := stack.settings_clear dropCache
  refine ⟨stack.clear dropCache, rfl, ?_, ?_⟩
  · exact {
      tidy := h.tidy.clear dropCache
      items := stack.items_clear dropCache
      bound := hmaxSize.trans h.bound
      peak := hpeak.trans (h.peak_eq_max (Nat.zero_le _)) }
  · exact ⟨hitemBytes.trans hkeeps.itemBytes, hsegmentSize.trans hkeeps.segmentSize,
      hmaxCached.trans hkeeps.maxCached⟩

/-- Each call answers what it answers on the list. -/
theorem Represents.answer (h : stack.Represents list)
    (hkeeps : stack.Keeps itemBytes segmentSize maxCached)
    (hfits : fitsMemory segmentSize itemBytes = true) (call : StackCall α) :
    ∃ next, stack.answer call = .ok (list.reply call, next) ∧
      next.Represents (list.after call) ∧ next.Keeps itemBytes segmentSize maxCached := by
  have hsize := h.size_eq
  have hsame := h.remember
  cases call with
  | push item => exact h.answer_push hkeeps hfits item
  | pop => exact h.answer_pop hkeeps
  | top =>
    refine ⟨stack, ?_, hsame, hkeeps⟩
    rw [SegmentedStack.answer, h.tidy.top?_eq, h.items]
    rfl
  | size =>
    refine ⟨stack, ?_, hsame, hkeeps⟩
    rw [SegmentedStack.answer, hsize]
    rfl
  | isEmpty =>
    have hempty : stack.isEmpty = list.items.isEmpty := by
      rw [Bool.eq_iff_iff, h.tidy.isEmpty_iff, h.items, List.isEmpty_iff]
    refine ⟨stack, ?_, hsame, hkeeps⟩
    rw [SegmentedStack.answer, hempty]
    rfl
  | isFull =>
    refine ⟨stack, ?_, hsame, hkeeps⟩
    rw [SegmentedStack.answer, SegmentedStack.isFull, hsize, h.bound]
    rfl
  | setMaximum maximum =>
    exact ⟨stack.setMaximum maximum, rfl, {
      tidy := h.tidy.setMaximum maximum
      items := h.items
      bound := rfl
      peak := hsame.peak }, ⟨hkeeps.itemBytes, hkeeps.segmentSize, hkeeps.maxCached⟩⟩
  | resetPeak =>
    exact ⟨stack.resetPeak, rfl, {
      tidy := h.tidy.resetPeak
      items := h.items
      bound := h.bound
      peak := hsize.trans (Nat.max_zero _).symm },
      ⟨hkeeps.itemBytes, hkeeps.segmentSize, hkeeps.maxCached⟩⟩
  | peak =>
    refine ⟨stack, ?_, hsame, hkeeps⟩
    rw [SegmentedStack.answer, h.peak]
    rfl
  | clear dropCache => exact h.answer_clear hkeeps dropCache

theorem Represents.run (h : stack.Represents list)
    (hkeeps : stack.Keeps itemBytes segmentSize maxCached)
    (hfits : fitsMemory segmentSize itemBytes = true) (calls : List (StackCall α)) :
    ∃ last, stack.run calls = .ok ((list.run calls).1, last) ∧
      last.Represents (list.run calls).2 ∧ last.Keeps itemBytes segmentSize maxCached := by
  induction calls generalizing stack list with
  | nil => exact ⟨stack, rfl, h, hkeeps⟩
  | cons call calls ih =>
    obtain ⟨next, hanswer, hnext, hkept⟩ := h.answer hkeeps hfits call
    obtain ⟨last, hrun, hlast, hkeptLast⟩ := ih hnext hkept
    refine ⟨last, ?_, hlast, hkeptLast⟩
    rw [SegmentedStack.run, hanswer]
    change (next.run calls >>= fun rest => pure (list.reply call :: rest.1, rest.2)) = _
    rw [hrun]
    rfl

end Calls

theorem represents_make (itemBytes segmentSize maxCached maximum : Nat)
    (hpos : 0 < segmentSize) :
    ∃ stack : SegmentedStack α, make itemBytes segmentSize maxCached maximum = .ok stack ∧
      stack.Represents (.make maximum) ∧ stack.Keeps itemBytes segmentSize maxCached := by
  have hmake : (make itemBytes segmentSize maxCached maximum : Except Fault (SegmentedStack α)) =
      .ok { itemBytes, segmentSize, maxCached, maxSize := boundOf maximum } := by
    rw [make, if_neg (Nat.pos_iff_ne_zero.mp hpos)]
  obtain ⟨hitems, htidy⟩ := items_make hmake
  exact ⟨_, hmake, ⟨htidy, hitems, rfl, rfl⟩, ⟨rfl, rfl, rfl⟩⟩

/-- Calls on a stack whose segments fit memory are answered as on a list with a bound, and
leave the stack with the items of the list. Every segment set aside is full, every segment
kept for later is empty, and there are no more of these than allowed. While the bound stays
as it is, neither the size nor the peak rises above it. -/
theorem run_eq_run_list (itemBytes segmentSize maxCached maximum : Nat) (hpos : 0 < segmentSize)
    (hfits : fitsMemory segmentSize itemBytes = true) (calls : List (StackCall α)) :
    ∃ start last : SegmentedStack α,
      make itemBytes segmentSize maxCached maximum = .ok start ∧
      start.run calls = .ok (((BoundedList.make maximum).run calls).1, last) ∧
      last.items = ((BoundedList.make maximum).run calls).2.items ∧
      (∀ segment ∈ last.full.toList, segment.size = segmentSize) ∧
      last.current.size ≤ segmentSize ∧
      (∀ segment ∈ last.cache.toList, segment = #[]) ∧
      last.cache.size ≤ maxCached ∧ last.maxCached = maxCached ∧
      ((∀ other, .setMaximum other ∉ calls) →
        last.size ≤ boundOf maximum ∧ last.peak ≤ boundOf maximum) := by
  obtain ⟨start, hmake, hstart, hkeeps⟩ :=
    represents_make (α := α) itemBytes segmentSize maxCached maximum hpos
  obtain ⟨last, hrun, hlast, hkept⟩ := hstart.run hkeeps hfits calls
  refine ⟨start, last, hmake, hrun, hlast.items, ?_, ?_, hlast.tidy.cache_empty, ?_,
    hkept.maxCached, fun hcalls => ?_⟩
  · exact fun segment hsegment => (hlast.tidy.full_size segment hsegment).trans hkept.segmentSize
  · exact hlast.tidy.current_le.trans_eq hkept.segmentSize
  · exact hlast.tidy.cache_le.trans_eq hkept.maxCached
  · obtain ⟨⟨hlength, hpeak⟩, hbound⟩ := (BoundedList.within_make maximum).run hcalls
    rw [hlast.size_eq, hlast.peak]
    exact ⟨hlength.trans_eq hbound, hpeak.trans_eq hbound⟩

theorem run_eq_run_list_sample :
    let calls : List (StackCall Nat) :=
      [.push 1, .push 2, .push 3, .push 4, .pop, .top, .pop, .clear false, .peak, .resetPeak, .peak]
    0 < 2 ∧ fitsMemory 2 8 = true ∧
      ∃ start last : SegmentedStack Nat, make 8 2 1 3 = .ok start ∧
        start.run calls =
          .ok ([.done, .done, .done, .refused 4, .item (some 3), .item (some 2), .item (some 2),
            .done, .number 3, .done, .number 0], last) ∧
        last.cache.size ≤ 1 ∧ last.size ≤ boundOf 3 ∧ last.peak ≤ boundOf 3 := by
  intro calls
  refine ⟨by decide, by decide, ?_⟩
  obtain ⟨start, last, hmake, hrun, -, -, -, -, hcache, -, hbounds⟩ :=
    run_eq_run_list 8 2 1 3 (by decide) (by decide) calls
  have hsizes := hbounds fun other => by simp [calls]
  exact ⟨start, last, hmake, hrun, hcache, hsizes⟩

/-- A stack of enormous segments is made and fails at its first item, which the list takes. -/
theorem push_fails_without_memory :
    ∃ start : SegmentedStack Nat, make 8 1152921504606846976 0 0 = .ok start ∧
      start.run [.push 1] = .error .capacityOverflow ∧
      ((BoundedList.make 0).run [.push 1]).1 = [.done (α := Nat)] :=
  ⟨_, rfl, rfl, rfl⟩

end SegmentedStack

end MarkPhase
