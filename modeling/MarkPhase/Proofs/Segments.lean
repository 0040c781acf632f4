import Mathlib.Data.List.Basic
import MarkPhase.SegmentedStack

/-!
The contents of a segmented stack as one list, the newest item first. The list
depends neither on how the items are cut into segments nor on what the cache
holds. It describes a stack faithfully as long as every full segment is full and
every cached one empty, and the operations keep it so.
-/

namespace MarkPhase

namespace SegmentedStack

variable {α : Type}

/-- The items of the stack, the newest first. -/
def items (stack : SegmentedStack α) : List α :=
  ((stack.full.toList.map Array.toList).flatten ++ stack.current.toList).reverse

theorem boundOf_pos (maximum : Nat) : 0 < boundOf maximum := by
  unfold boundOf
  split
  · decide
  · omega

/-- The segments are as long as they claim to be, and the peak is not behind. -/
structure Tidy (stack : SegmentedStack α) : Prop where
  segmentSize_pos : 0 < stack.segmentSize
  full_size : ∀ segment ∈ stack.full.toList, segment.size = stack.segmentSize
  current_le : stack.current.size ≤ stack.segmentSize
  cache_empty : ∀ segment ∈ stack.cache.toList, segment = #[]
  cache_le : stack.cache.size ≤ stack.maxCached
  size_le_peak : stack.size ≤ stack.peak

theorem items_make {itemBytes segmentSize maxCached maximum : Nat} {stack : SegmentedStack α}
    (h : make itemBytes segmentSize maxCached maximum = .ok stack) :
    stack.items = [] ∧ stack.Tidy := by
  unfold make at h
  split at h
  · cases h
  · rename_i hpos
    cases h
    refine ⟨rfl, ?_⟩
    exact {
      segmentSize_pos := Nat.pos_of_ne_zero hpos
      full_size := by simp
      current_le := Nat.zero_le _
      cache_empty := by simp
      cache_le := Nat.zero_le _
      size_le_peak := by simp [size] }

private theorem length_flatten {n : Nat} (segments : List (Array α))
    (h : ∀ segment ∈ segments, segment.size = n) :
    (segments.map Array.toList).flatten.length = segments.length * n := by
  induction segments with
  | nil => simp
  | cons segment segments ih =>
    have hfirst : segment.size = n := h segment (List.mem_cons_self ..)
    have hrest := ih fun other hother => h other (List.mem_cons_of_mem _ hother)
    simp only [List.map_cons, List.flatten_cons, List.length_append, Array.length_toList,
      List.length_cons, hfirst, hrest, Nat.add_mul]
    omega

namespace Tidy

variable {stack : SegmentedStack α}

theorem size_eq (h : stack.Tidy) : stack.size = stack.items.length := by
  have hfull := length_flatten stack.full.toList h.full_size
  simp only [items, List.length_reverse, List.length_append, hfull, Array.length_toList, size]

theorem isEmpty_iff (h : stack.Tidy) : stack.isEmpty = true ↔ stack.items = [] := by
  have hsize := h.size_eq
  have hpos := h.segmentSize_pos
  simp only [isEmpty, Bool.and_eq_true, Array.isEmpty_iff_size_eq_zero, ← List.length_eq_zero_iff,
    ← hsize, size, Nat.add_eq_zero_iff, Nat.mul_eq_zero]
  omega

/-- Adding an item puts it in front, whatever becomes of the segments. -/
theorem items_extend (h : stack.Tidy) (item : α) :
    (stack.extend item).items = item :: stack.items := by
  unfold extend
  split
  · split
    · simp [items]
    · rename_i segment hback
      have hempty : segment = #[] :=
        h.cache_empty segment (Array.mem_toList_iff.mpr (Array.mem_of_back? hback))
      simp [items, hempty]
  · simp [items]

theorem size_extend (h : stack.Tidy) (item : α) : (stack.extend item).size = stack.size + 1 := by
  unfold extend
  split
  · rename_i hfull
    split
    · simp only [size, Array.size_push, hfull, Nat.add_mul]
      simp
    · rename_i segment hback
      have hempty : segment = #[] :=
        h.cache_empty segment (Array.mem_toList_iff.mpr (Array.mem_of_back? hback))
      simp only [size, Array.size_push, hfull, Nat.add_mul, hempty]
      simp
  · simp only [size, Array.size_push]
    omega

theorem extend (h : stack.Tidy) (item : α) : (stack.extend item).notePeak.Tidy := by
  have hsize := h.size_extend item
  have hpeak : (stack.extend item).notePeak.size ≤ (stack.extend item).notePeak.peak :=
    Nat.le_max_right _ _
  have hpos := h.segmentSize_pos
  refine ⟨?_, ?_, ?_, ?_, ?_, hpeak⟩
  all_goals
    simp only [notePeak, SegmentedStack.extend]
    split
  · split <;> exact hpos
  · exact hpos
  · rename_i hfull
    have hall : ∀ segment ∈ (stack.full.push stack.current).toList,
        segment.size = stack.segmentSize := by
      intro segment hmem
      rw [Array.toList_push, List.mem_append, List.mem_singleton] at hmem
      rcases hmem with hold | rfl
      · exact h.full_size segment hold
      · exact hfull
    split <;> exact hall
  · exact h.full_size
  · split
    · exact hpos
    · rename_i segment hback
      have hempty : segment = #[] :=
        h.cache_empty segment (Array.mem_toList_iff.mpr (Array.mem_of_back? hback))
      simpa [hempty, Nat.one_le_iff_ne_zero, Nat.pos_iff_ne_zero] using hpos
  · rename_i hnot
    have hle := h.current_le
    simp only [Array.size_push]
    omega
  · split
    · exact h.cache_empty
    · intro segment hmem
      exact h.cache_empty segment (List.dropLast_subset _ (by simpa using hmem))
  · exact h.cache_empty
  · have hle := h.cache_le
    split
    · exact hle
    · simp only [Array.size_pop]
      omega
  · exact h.cache_le

end Tidy

/-- A stack takes an item below its bound, where segments fit memory. -/
theorem admits_eq_true_iff {stack : SegmentedStack α} : stack.admits = .ok true ↔
    stack.size < stack.maxSize ∧ fitsMemory stack.segmentSize stack.itemBytes = true := by
  rw [← allocationFault?_eq_none]
  unfold admits isFull
  by_cases hfull : stack.maxSize ≤ stack.size
  · simp [hfull, Nat.not_lt.mpr hfull]
  · simp only [hfull, decide_false, Bool.false_eq_true, if_false, Nat.lt_of_not_le hfull, true_and]
    split <;> simp [*]

/-- A stack fails to take an item for want of memory only. -/
theorem eq_of_admits_eq_error {stack : SegmentedStack α} {fault : Fault}
    (h : stack.admits = .error fault) :
    allocationFault? stack.segmentSize stack.itemBytes = some fault := by
  unfold admits at h
  split at h
  · cases h
  · split at h
    · cases h
    · rename_i hfault
      exact Except.error.inj h ▸ hfault

@[simp]
theorem segmentSize_extend (stack : SegmentedStack α) (item : α) :
    (stack.extend item).segmentSize = stack.segmentSize := by
  unfold extend
  split
  · split <;> rfl
  · rfl

@[simp]
theorem itemBytes_extend (stack : SegmentedStack α) (item : α) :
    (stack.extend item).itemBytes = stack.itemBytes := by
  unfold extend
  split
  · split <;> rfl
  · rfl

@[simp]
theorem maxSize_extend (stack : SegmentedStack α) (item : α) :
    (stack.extend item).maxSize = stack.maxSize := by
  unfold extend
  split
  · split <;> rfl
  · rfl

@[simp]
theorem maxCached_extend (stack : SegmentedStack α) (item : α) :
    (stack.extend item).maxCached = stack.maxCached := by
  unfold extend
  split
  · split <;> rfl
  · rfl

@[simp]
theorem peak_extend (stack : SegmentedStack α) (item : α) :
    (stack.extend item).peak = stack.peak := by
  unfold extend
  split
  · split <;> rfl
  · rfl

@[simp]
theorem items_notePeak (stack : SegmentedStack α) : stack.notePeak.items = stack.items :=
  rfl

/-- What stays as it is when the newest item is removed. -/
theorem settings_pop (stack : SegmentedStack α) :
    stack.pop.2.segmentSize = stack.segmentSize ∧ stack.pop.2.itemBytes = stack.itemBytes ∧
      stack.pop.2.maxSize = stack.maxSize ∧ stack.pop.2.peak = stack.peak := by
  unfold pop
  split
  · exact ⟨rfl, rfl, rfl, rfl⟩
  · split <;> exact ⟨rfl, rfl, rfl, rfl⟩

theorem maxCached_pop (stack : SegmentedStack α) :
    stack.pop.2.maxCached = stack.maxCached := by
  unfold pop
  split
  · rfl
  · split <;> rfl

namespace Tidy

variable {stack : SegmentedStack α}

private theorem exists_push_of_full (h : stack.Tidy) {segment : Array α}
    (hback : stack.full.back? = some segment) :
    ∃ (below : Array (Array α)) (rest : Array α) (item : α),
      stack.full = below.push segment ∧ segment = rest.push item := by
  obtain ⟨below, hfull⟩ := Array.back?_eq_some_iff.mp hback
  have hsize : segment.size = stack.segmentSize :=
    h.full_size segment (by simp [hfull])
  have hne : segment.size ≠ 0 := by
    have hpos := h.segmentSize_pos
    omega
  obtain ⟨rest, item, hsegment⟩ := Array.eq_push_of_size_ne_zero hne
  exact ⟨below, rest, item, hfull, hsegment⟩

/-- Removing the newest item hands it back and leaves the others. -/
theorem items_pop (h : stack.Tidy) :
    stack.pop.1 = stack.items.head? ∧ stack.pop.2.items = stack.items.tail := by
  unfold pop
  split
  · rename_i item hback
    obtain ⟨rest, hcurrent⟩ := Array.back?_eq_some_iff.mp hback
    simp [items, hcurrent]
  · rename_i hnone
    have hcurrent : stack.current = #[] := by simpa using hnone
    split
    · rename_i hfull
      have hempty : stack.full = #[] := by simpa using hfull
      simp [items, hcurrent, hempty]
    · rename_i segment hback
      obtain ⟨below, rest, item, hfull, hsegment⟩ := h.exists_push_of_full hback
      simp [items, hcurrent, hfull, hsegment]

theorem pop (h : stack.Tidy) : stack.pop.2.Tidy := by
  have hle := h.current_le
  have hpeak := h.size_le_peak
  have hcache := h.cache_le
  unfold SegmentedStack.pop
  split
  · rename_i item hback
    obtain ⟨rest, hcurrent⟩ := Array.back?_eq_some_iff.mp hback
    simp only [size, hcurrent, Array.size_push] at hpeak hle
    exact { h with
      current_le := by simp only [hcurrent, Array.pop_push]; omega
      size_le_peak := by simp only [size, hcurrent, Array.pop_push]; omega }
  · rename_i hnone
    have hcurrent : stack.current = #[] := by simpa using hnone
    split
    · exact h
    · rename_i segment hback
      obtain ⟨below, rest, item, hfull, hsegment⟩ := h.exists_push_of_full hback
      have hsize : segment.size = stack.segmentSize := h.full_size segment (by simp [hfull])
      simp only [size, hfull, Array.size_push, Nat.add_mul, hcurrent] at hpeak
      simp only [hsegment, Array.size_push] at hsize
      refine ⟨h.segmentSize_pos, ?_, ?_, ?_, ?_, ?_⟩
      · intro other hother
        apply h.full_size other
        simp only [hfull, Array.pop_push] at hother
        simp [hfull, hother]
      · simp only [hsegment, Array.pop_push]
        omega
      · intro other hother
        simp only [retired] at hother
        split at hother
        · rw [Array.toList_push, List.mem_append, List.mem_singleton] at hother
          rcases hother with hold | rfl
          · exact h.cache_empty other hold
          · exact hcurrent
        · exact h.cache_empty other hother
      · simp only [retired]
        split
        · simp only [Array.size_push]
          omega
        · exact hcache
      · simp only [size, hfull, hsegment, Array.pop_push]
        simp only [Array.size_empty] at hpeak
        omega

/-- The newest item is found even when the newest segment has run out. -/
theorem top?_eq (h : stack.Tidy) : stack.top? = stack.items.head? := by
  unfold top?
  split
  · rename_i item hback
    obtain ⟨rest, hcurrent⟩ := Array.back?_eq_some_iff.mp hback
    simp [items, hcurrent]
  · rename_i hnone
    have hcurrent : stack.current = #[] := by simpa using hnone
    cases hback : stack.full.back? with
    | none =>
      have hempty : stack.full = #[] := by simpa using hback
      simp [items, hcurrent, hempty]
    | some segment =>
      obtain ⟨below, rest, item, hfull, hsegment⟩ := h.exists_push_of_full hback
      simp [items, hcurrent, hfull, hsegment]

/-- Segments that are given up go to the cache as far as it has room. -/
theorem clear (h : stack.Tidy) (dropCache : Bool) : (stack.clear dropCache).Tidy := by
  have hcache := h.cache_le
  unfold SegmentedStack.clear
  split
  · exact {
      segmentSize_pos := h.segmentSize_pos
      full_size := by simp
      current_le := Nat.zero_le _
      cache_empty := by simp
      cache_le := Nat.zero_le _
      size_le_peak := by simp [size] }
  · exact {
      segmentSize_pos := h.segmentSize_pos
      full_size := by simp
      current_le := Nat.zero_le _
      cache_empty := by
        intro segment hmem
        rw [Array.toList_append, List.mem_append, Array.toList_replicate] at hmem
        exact hmem.elim (h.cache_empty segment) fun hnew => (List.mem_replicate.mp hnew).2
      cache_le := by
        change (stack.cache ++ Array.replicate _ #[]).size ≤ stack.maxCached
        rw [Array.size_append, Array.size_replicate]
        omega
      size_le_peak := by simp [size] }

theorem resetPeak (h : stack.Tidy) : stack.resetPeak.Tidy :=
  { h with size_le_peak := Nat.le_refl _ }

theorem setMaximum (h : stack.Tidy) (maximum : Nat) : (stack.setMaximum maximum).Tidy :=
  { h with }

end Tidy

@[simp]
theorem items_clear (stack : SegmentedStack α) (dropCache : Bool) :
    (stack.clear dropCache).items = [] := by
  unfold clear
  split <;> rfl

/-- What stays as it is when the stack is cleared. -/
theorem settings_clear (stack : SegmentedStack α) (dropCache : Bool) :
    (stack.clear dropCache).segmentSize = stack.segmentSize ∧
      (stack.clear dropCache).itemBytes = stack.itemBytes ∧
      (stack.clear dropCache).maxSize = stack.maxSize ∧
      (stack.clear dropCache).maxCached = stack.maxCached ∧
      (stack.clear dropCache).peak = stack.peak := by
  unfold clear
  split <;> exact ⟨rfl, rfl, rfl, rfl, rfl⟩

end SegmentedStack

end MarkPhase
