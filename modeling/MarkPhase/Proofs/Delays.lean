import Mathlib.Data.List.Nodup
import MarkPhase.DelayedList

/-!
The delayed list and the set of codes beside it tell the same story: a thing is
said to wait exactly when it is on the list, and it is there once.
-/

namespace MarkPhase

namespace DelayedList

/-- The codes are those of the listed things, each of which is listed once. -/
structure Tidy (delayed : DelayedList) : Prop where
  mem_codes : ∀ code, code ∈ delayed.codes ↔ ∃ thing ∈ delayed.things, thing.code = code
  nodup : delayed.things.Nodup
  size_codes : delayed.codes.size = delayed.things.length

theorem tidy_empty : ({} : DelayedList).Tidy where
  mem_codes code := by simp
  nodup := List.nodup_nil
  size_codes := by simp

/-- What is taken from the list, and what is left on it, was on it before. -/
theorem pop_subset (delayed : DelayedList) :
    (∀ thing, delayed.pop.1 = some thing → thing ∈ delayed.things) ∧
      ∀ thing ∈ delayed.pop.2.things, thing ∈ delayed.things := by
  unfold pop
  split
  · exact ⟨nofun, fun _ => id⟩
  · rename_i first rest heq
    rw [heq]
    refine ⟨fun thing hthing => ?_, fun thing => List.mem_cons_of_mem _⟩
    obtain rfl := Option.some.inj hthing
    exact List.mem_cons_self ..

/-- Nothing comes onto the list but what is added. -/
theorem add_subset (delayed : DelayedList) (added : Thing) :
    ∀ thing ∈ (delayed.add added).2.things, thing ∈ delayed.things ∨ thing = added := by
  unfold add
  split
  · exact fun thing => Or.inl
  · exact fun thing hthing => (List.mem_cons.mp hthing).symm

namespace Tidy

variable {delayed : DelayedList}

theorem contains_iff (h : delayed.Tidy) (thing : Thing) :
    delayed.contains thing = true ↔ thing ∈ delayed.things := by
  unfold contains
  rw [← Std.TreeSet.mem_iff_contains, h.mem_codes]
  constructor
  · intro hgiven
    obtain ⟨other, hmem, hcode⟩ := hgiven
    rwa [← Thing.code_injective hcode]
  · intro hmem
    exact ⟨thing, hmem, rfl⟩

/-- A thing that waits already is not added again. -/
theorem add_of_mem (h : delayed.Tidy) {thing : Thing} (hmem : thing ∈ delayed.things) :
    delayed.add thing = (false, delayed) := by
  unfold DelayedList.add
  rw [if_pos ((h.contains_iff thing).mpr hmem)]

theorem add_of_notMem (h : delayed.Tidy) {thing : Thing} (hmem : thing ∉ delayed.things) :
    (delayed.add thing).1 = true ∧ (delayed.add thing).2.things = thing :: delayed.things ∧
      (delayed.add thing).2.Tidy := by
  have hnot : ¬ delayed.contains thing = true := fun hc => hmem ((h.contains_iff thing).mp hc)
  unfold DelayedList.add
  rw [if_neg hnot]
  refine ⟨rfl, rfl, ?_⟩
  exact {
    mem_codes := by
      intro code
      simp only [Std.TreeSet.mem_insert, Nat.compare_eq_eq, h.mem_codes, List.mem_cons,
        exists_eq_or_imp]
    nodup := List.nodup_cons.mpr ⟨hmem, h.nodup⟩
    size_codes := by
      have hcode : ¬ delayed.codes.contains thing.code = true := hnot
      rw [Std.TreeSet.size_insert, if_neg hcode, h.size_codes]
      rfl }

/-- Whether it waited before or not, the thing waits once afterwards. -/
theorem add (h : delayed.Tidy) (thing : Thing) : (delayed.add thing).2.Tidy ∧
    ∀ other, (delayed.add thing).2.things.count other =
      if thing = other then 1 else delayed.things.count other := by
  by_cases hmem : thing ∈ delayed.things
  · rw [h.add_of_mem hmem]
    refine ⟨h, fun other => ?_⟩
    split
    · rename_i heq
      exact heq ▸ List.nodup_iff_count_eq_one.mp h.nodup thing hmem
    · rfl
  · obtain ⟨-, hthings, htidy⟩ := h.add_of_notMem hmem
    refine ⟨htidy, fun other => ?_⟩
    rw [hthings]
    split
    · rename_i heq
      subst heq
      rw [List.count_cons_self, List.count_eq_zero.mpr hmem]
    · rename_i hne
      exact List.count_cons_of_ne hne

theorem mem_add (h : delayed.Tidy) {thing other : Thing} :
    other ∈ (delayed.add thing).2.things ↔ other = thing ∨ other ∈ delayed.things := by
  rw [← List.count_pos_iff, (h.add thing).2]
  by_cases heq : thing = other
  · simp [heq]
  · rw [if_neg heq, List.count_pos_iff]
    exact (or_iff_right (Ne.symm heq)).symm

theorem pop_nil (hthings : delayed.things = []) : delayed.pop = (none, delayed) := by
  unfold DelayedList.pop
  rw [hthings]

/-- The newest of the waiting things comes first, and it may wait again. -/
theorem pop_cons (h : delayed.Tidy) {thing : Thing} {rest : List Thing}
    (hthings : delayed.things = thing :: rest) :
    delayed.pop.1 = some thing ∧ delayed.pop.2.things = rest ∧ delayed.pop.2.Tidy := by
  have hnodup := h.nodup
  rw [hthings, List.nodup_cons] at hnodup
  have hcode : thing.code ∈ delayed.codes := (h.mem_codes thing.code).mpr
    ⟨thing, by rw [hthings]; exact List.mem_cons_self .., rfl⟩
  unfold DelayedList.pop
  rw [hthings]
  refine ⟨rfl, rfl, ?_⟩
  exact {
    mem_codes := by
      intro code
      simp only [Std.TreeSet.mem_erase, Nat.compare_eq_eq, ne_eq, h.mem_codes, hthings,
        List.mem_cons, exists_eq_or_imp]
      constructor
      · intro hgiven
        obtain ⟨hne, heq | ⟨other, hmem, heq⟩⟩ := hgiven
        · exact absurd heq hne
        · exact ⟨other, hmem, heq⟩
      · intro hgiven
        obtain ⟨other, hmem, rfl⟩ := hgiven
        refine ⟨fun hsame => ?_, Or.inr ⟨other, hmem, rfl⟩⟩
        exact hnodup.1 (Thing.code_injective hsame ▸ hmem)
    nodup := hnodup.2
    size_codes := by
      have hsize := h.size_codes
      rw [hthings, List.length_cons] at hsize
      rw [Std.TreeSet.size_erase, if_pos (Std.TreeSet.mem_iff_contains.mp hcode), hsize]
      rfl }

theorem pop (h : delayed.Tidy) : delayed.pop.2.Tidy := by
  cases hthings : delayed.things with
  | nil => exact (pop_nil hthings).symm ▸ h
  | cons thing rest => exact (h.pop_cons hthings).2.2

theorem isEmpty_iff : delayed.isEmpty = true ↔ delayed.things = [] := by
  unfold isEmpty
  exact List.isEmpty_iff

end Tidy

end DelayedList

end MarkPhase
