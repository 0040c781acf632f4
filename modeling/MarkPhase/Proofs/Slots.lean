import Mathlib.Algebra.Group.Nat.Defs
import Mathlib.Order.Lattice
import MarkPhase.Proofs.WellFormed

/-!
The slots of an object. A write stores its value inline or in the overflow, which it makes
longer where it has to, and the span follows the highest index. Which slots are stored where
does not show: a slot holds what was last written to it, and undefined before that.
-/

namespace MarkPhase

namespace ObjectCell

variable {object : ObjectCell}

/-! The regions in use. -/

theorem Stored.span_eq (h : object.Stored) :
    object.span = object.regionSize .fixed + object.regionSize .dynamic := by
  have h := h.span_le
  simp only [regionSize]
  cases hoverflow : object.overflow with
  | none =>
    simp only [hoverflow, Option.getD_none, Array.size_empty] at h
    simp only
    omega
  | some slots =>
    simp only [hoverflow, Option.getD_some] at h
    simp only
    omega

theorem slot_fixed {index : Nat} (hlt : index < object.regionSize .fixed) :
    object.slot index = object.regionValue .fixed index := by
  simp only [regionSize, lt_inf_iff] at hlt
  exact if_pos hlt.2

/-- Slots in the overflow come after the inline slots in use. -/
theorem Stored.slot_dynamic (h : object.Stored) {index : Nat}
    (hlt : index < object.regionSize .dynamic) :
    object.slot (object.regionSize .fixed + index) = object.regionValue .dynamic index := by
  have hspan := h.span_eq
  have hinline : object.regionSize .fixed = object.inlineSlots.size := by
    simp only [regionSize] at hspan hlt ⊢
    split at hlt <;> omega
  rw [hinline, slot, if_neg (by omega), Nat.add_sub_cancel_left]

/-- The slots below the span are those in the inline slots and those in the overflow. -/
theorem Stored.map_slot (h : object.Stored) :
    (List.range object.span).map object.slot = object.region .fixed ++ object.region .dynamic := by
  rw [h.span_eq, List.range_add, List.map_append, List.map_map]
  congr 1
  · exact List.map_congr_left fun index hindex => slot_fixed (List.mem_range.mp hindex)
  · exact List.map_congr_left fun index hindex => h.slot_dynamic (List.mem_range.mp hindex)

/-! Writing a slot. -/

theorem size_stored (slots : Array Value) (index : Nat) (value : Value) :
    (stored slots index value).size = max slots.size (index + 1) := by
  unfold stored
  split
  · simp only [Array.size_setIfInBounds]
    omega
  · simp only [Array.size_push, Array.size_append, Array.size_replicate]
    omega

/-- Where a vector was made longer it holds undefined values up to the new one. -/
theorem getD_stored (slots : Array Value) (index : Nat) (value : Value) (other : Nat) :
    (stored slots index value).getD other .undefined =
      if other = index then value else slots.getD other .undefined := by
  unfold stored
  simp only [Array.getD_eq_getD_getElem?]
  split
  · rename_i hlt
    rw [Array.getElem?_setIfInBounds]
    by_cases heq : other = index
    · simp [heq, hlt]
    · simp [heq, Ne.symm heq]
  · rename_i hge
    have hsize : slots.size + (index - slots.size) = index := by omega
    rw [Array.getElem?_push, Array.getElem?_append]
    simp only [Array.size_append, Array.size_replicate, Array.getElem?_replicate, hsize]
    by_cases heq : other = index
    · simp [heq]
    · rw [if_neg heq, if_neg heq]
      by_cases hin : other < slots.size
      · rw [if_pos hin]
      · rw [if_neg hin, Array.getElem?_eq_none (Nat.le_of_not_lt hin)]
        split <;> rfl

theorem mem_setIfInBounds {slots : Array Value} {index : Nat} {old value : Value}
    (h : old ∈ (slots.setIfInBounds index value).toList) : old ∈ slots.toList ∨ old = value := by
  rw [Array.toList_setIfInBounds] at h
  exact List.mem_or_eq_of_mem_set h

theorem mem_stored {slots : Array Value} {index : Nat} {old value : Value}
    (h : old ∈ (stored slots index value).toList) :
    old ∈ slots.toList ∨ old = .undefined ∨ old = value := by
  unfold stored at h
  split at h
  · rcases mem_setIfInBounds h with hold | hnew
    · exact Or.inl hold
    · exact Or.inr (Or.inr hnew)
  · simp only [Array.toList_push, Array.toList_append, Array.toList_replicate, List.mem_append,
      List.mem_replicate, List.mem_singleton] at h
    rcases h with (hold | hpad) | hnew
    · exact Or.inl hold
    · exact Or.inr (Or.inl hpad.2)
    · exact Or.inr (Or.inr hnew)

/-- The object with one value stored and its span as it was. -/
def withSlot (cell : ObjectCell) (index : Nat) (value : Value) : ObjectCell :=
  if index < cell.inlineSlots.size then
    { cell with inlineSlots := cell.inlineSlots.setIfInBounds index value }
  else
    { cell with
      overflow := some (stored (cell.overflow.getD #[])
        (index - cell.inlineSlots.size) value) }

/-- A write stores the value and keeps the span above it. -/
theorem write?_eq (cell : ObjectCell) (index : Nat) (value : Value) :
    cell.write? index value =
      if index < cell.span then some (cell.withSlot index value)
      else if index % 2 ^ 32 + 1 < 2 ^ 32 then
        some { cell.withSlot index value with span := index % 2 ^ 32 + 1 }
      else none := by
  have hspan : (cell.withSlot index value).span = cell.span := by
    unfold withSlot
    split <;> rfl
  rw [← hspan]
  rfl

/-- A write changes nothing but the slots and the span. -/
theorem withSlot_fields (cell : ObjectCell) (index : Nat) (value : Value) :
    (cell.withSlot index value).compartment = cell.compartment ∧
      (cell.withSlot index value).type = cell.type ∧
      (cell.withSlot index value).shape = cell.shape ∧
      (cell.withSlot index value).span = cell.span ∧
      (cell.withSlot index value).elements = cell.elements ∧
      (cell.withSlot index value).privateThing = cell.privateThing := by
  unfold withSlot
  split <;> exact ⟨rfl, rfl, rfl, rfl, rfl, rfl⟩

theorem withSlot_storage (cell : ObjectCell) (index : Nat) (value : Value) :
    (cell.withSlot index value).inlineSlots.size = cell.inlineSlots.size ∧
      ((cell.withSlot index value).overflow.getD #[]).size =
        max (cell.overflow.getD #[]).size (cell.overflowLength index) ∧
      ((cell.withSlot index value).overflow.isSome = true ↔
        cell.overflow.isSome = true ∨ cell.inlineSlots.size ≤ index) := by
  unfold withSlot overflowLength
  split
  · rename_i hinline
    exact ⟨Array.size_setIfInBounds, (Nat.max_zero _).symm,
      ⟨Or.inl, fun h => h.resolve_right (Nat.not_le_of_lt hinline)⟩⟩
  · rename_i hinline
    exact ⟨rfl, size_stored _ _ _, ⟨fun _ => Or.inr (Nat.le_of_not_lt hinline), fun _ => rfl⟩⟩

/-- The slot written holds the value, and every other slot what it held. -/
theorem slot_withSlot (cell : ObjectCell) (index : Nat) (value : Value) (other : Nat) :
    (cell.withSlot index value).slot other =
      if other = index then value else cell.slot other := by
  unfold withSlot slot regionValue
  split
  · rename_i hinline
    simp only [Array.size_setIfInBounds]
    by_cases hother : other < cell.inlineSlots.size
    · rw [if_pos hother, if_pos hother, Array.getD_eq_getD_getElem?, Array.getD_eq_getD_getElem?,
        Array.getElem?_setIfInBounds]
      by_cases heq : other = index
      · simp [heq, hinline]
      · simp [heq, Ne.symm heq]
    · rw [if_neg hother, if_neg hother, if_neg (by omega)]
  · rename_i hinline
    by_cases hother : other < cell.inlineSlots.size
    · rw [if_pos hother, if_pos hother, if_neg (by omega)]
    · rw [if_neg hother, if_neg hother, Option.getD_some, getD_stored]
      have hsame : other - cell.inlineSlots.size = index - cell.inlineSlots.size ↔
        other = index := by omega
      simp only [hsame]

theorem values_withSlot {cell : ObjectCell} {index : Nat} {old value : Value}
    (h : old ∈ (withSlot cell index value).values) :
    old ∈ cell.values ∨ old = .undefined ∨ old = value := by
  unfold withSlot at h
  simp only [values, List.mem_append] at h ⊢
  split at h
  · rcases h with (hinline | hover) | helement
    · rcases mem_setIfInBounds hinline with hold | hnew
      · exact Or.inl (Or.inl (Or.inl hold))
      · exact Or.inr (Or.inr hnew)
    · exact Or.inl (Or.inl (Or.inr hover))
    · exact Or.inl (Or.inr helement)
  · rcases h with (hinline | hover) | helement
    · exact Or.inl (Or.inl (Or.inl hinline))
    · rcases mem_stored hover with hold | hother
      · exact Or.inl (Or.inl (Or.inr hold))
      · exact Or.inr hother
    · exact Or.inl (Or.inr helement)

theorem references_withSlot {cell : ObjectCell} {index : Nat} {value : Value}
    {thing : Thing} (h : thing ∈ (withSlot cell index value).references) :
    thing ∈ cell.references ∨ value.thing? = some thing := by
  obtain ⟨-, htype, hshape, -, -, hprivate⟩ := withSlot_fields cell index value
  simp only [references, htype, hshape, hprivate, List.mem_cons, List.mem_append,
    List.mem_filterMap] at h ⊢
  rcases h with htype | hshape | hprivate | ⟨old, hold, hthing⟩
  · exact Or.inl (Or.inl htype)
  · exact Or.inl (Or.inr (Or.inl hshape))
  · exact Or.inl (Or.inr (Or.inr (Or.inl hprivate)))
  · rcases values_withSlot hold with hvalue | rfl | rfl
    · exact Or.inl (Or.inr (Or.inr (Or.inr ⟨old, hvalue, hthing⟩)))
    · simp [Value.thing?] at hthing
    · exact Or.inr hthing

/-- What a write leaves: the value stored, and a span that is as it was or no higher than
right above, and a word. -/
theorem of_write? {cell written : ObjectCell} {index : Nat} {value : Value}
    (h : cell.write? index value = some written) :
    ∃ span, written = { cell.withSlot index value with span } ∧
      (span = cell.span ∨ span ≤ index + 1 ∧ span < 2 ^ 32) := by
  rw [write?_eq] at h
  split at h
  · obtain rfl := Option.some.inj h
    exact ⟨cell.span, by rw [← (withSlot_fields cell index value).2.2.2.1], Or.inl rfl⟩
  · split at h
    · rename_i hlt
      obtain rfl := Option.some.inj h
      exact ⟨_, rfl, Or.inr ⟨Nat.succ_le_succ (Nat.mod_le _ _), hlt⟩⟩
    · cases h

/-- A written slot lies in the storage that the write has made for it. -/
theorem stored_write? {cell written : ObjectCell} {index : Nat} {value : Value}
    (h : cell.write? index value = some written) (hstored : cell.Stored) :
    written.compartment = cell.compartment ∧ written.Stored ∧
      ∀ thing ∈ written.references, thing ∈ cell.references ∨ value.thing? = some thing := by
  obtain ⟨span, rfl, hspan⟩ := of_write? h
  obtain ⟨hinline, hoverflow, -⟩ := withSlot_storage cell index value
  have hspan_le := hstored.span_le
  have hspan_lt := hstored.span_lt
  refine ⟨(withSlot_fields cell index value).1, ⟨?_, ?_⟩,
    fun thing hthing => references_withSlot hthing⟩
  · change span ≤ (cell.withSlot index value).inlineSlots.size +
      ((cell.withSlot index value).overflow.getD #[]).size
    unfold overflowLength at hoverflow
    split at hoverflow <;> omega
  · change span < 2 ^ 32
    omega

/-- The object with one value stored and its span above the slot. -/
def written (cell : ObjectCell) (index : Nat) (value : Value) : ObjectCell :=
  { cell.withSlot index value with span := max cell.span (index + 1) }

@[simp]
theorem span_written (cell : ObjectCell) (index : Nat) (value : Value) :
    (cell.written index value).span = max cell.span (index + 1) :=
  rfl

theorem slot_written (cell : ObjectCell) (index : Nat) (value : Value) (other : Nat) :
    (cell.written index value).slot other = if other = index then value else cell.slot other :=
  slot_withSlot cell index value other

/-- Below the largest index a write succeeds, and the span ends up above the slot. -/
theorem write?_of_lt (cell : ObjectCell) {index : Nat} (hindex : index < 2 ^ 32 - 1)
    (value : Value) : cell.write? index value = some (cell.written index value) := by
  have hmod : index % 2 ^ 32 = index := Nat.mod_eq_of_lt (by omega)
  have hspan := (withSlot_fields cell index value).2.2.2.1
  unfold written
  rw [write?_eq, hmod]
  by_cases hlt : index < cell.span
  · rw [if_pos hlt, Nat.max_eq_left hlt, ← hspan]
  · rw [if_neg hlt, if_pos (by omega), Nat.max_eq_right (by omega)]

/-- What an object with `fixed` inline slots stores after the writes, the newest first. -/
structure Carries (cell : ObjectCell) (fixed : Nat) (writes : List (Nat × Value)) : Prop where
  inline : cell.inlineSlots.size = fixed
  below_span : ∀ write ∈ writes, write.1 < cell.span
  span : cell.span = 0 ∨ ∃ write ∈ writes, cell.span = write.1 + 1
  slot : ∀ index, cell.slot index = (writes.lookup index).getD .undefined
  overflow : cell.overflow.isSome = true ↔ fixed < cell.span
  overflow_size : (cell.overflow.getD #[]).size = cell.span - fixed

namespace Carries

variable {cell : ObjectCell} {fixed : Nat} {writes : List (Nat × Value)}

theorem make (compartment : CompartmentId) (type : TypeObjectId) (shape : ShapeId)
    (fixed : Nat) : (ObjectCell.make compartment type shape fixed).Carries fixed [] where
  inline := Array.size_replicate
  below_span := nofun
  span := Or.inl rfl
  slot index := by
    unfold ObjectCell.slot
    split
    · rename_i hlt
      have hfixed : index < fixed := by simpa [ObjectCell.make] using hlt
      simp [ObjectCell.make, regionValue, Array.getD_eq_getD_getElem?, hfixed]
    · simp [ObjectCell.make, regionValue]
  overflow := by simp [ObjectCell.make]
  overflow_size := by simp [ObjectCell.make]

theorem write (h : cell.Carries fixed writes) (index : Nat) (value : Value) :
    (cell.written index value).Carries fixed ((index, value) :: writes) where
  inline := (withSlot_storage cell index value).1.trans h.inline
  below_span := by
    simp only [List.forall_mem_cons, span_written]
    refine ⟨by omega, fun write hwrite => ?_⟩
    have := h.below_span write hwrite
    omega
  span := by
    rw [span_written]
    refine Or.inr ?_
    by_cases hlt : index < cell.span
    · obtain hzero | ⟨write, hwrite, hspan⟩ := h.span
      · omega
      · exact ⟨write, List.mem_cons_of_mem _ hwrite, by omega⟩
    · exact ⟨_, List.mem_cons_self .., by omega⟩
  slot other := by
    rw [slot_written, h.slot, List.lookup_cons]
    by_cases heq : other = index
    · simp [heq]
    · rw [if_neg heq, beq_false_of_ne heq]
  overflow := by
    change (cell.withSlot index value).overflow.isSome = true ↔ fixed < max cell.span (index + 1)
    rw [(withSlot_storage cell index value).2.2, h.overflow, h.inline]
    omega
  overflow_size := by
    change ((cell.withSlot index value).overflow.getD #[]).size = max cell.span (index + 1) - fixed
    rw [(withSlot_storage cell index value).2.1, h.overflow_size, overflowLength, h.inline]
    split <;> omega

/-- The span is one more than the highest index written, whatever the order. -/
theorem span_eq (h : cell.Carries fixed writes) :
    cell.span = ((writes.reverse.map (·.1 + 1)).max?).getD 0 := by
  obtain hzero | ⟨write, hwrite, hspan⟩ := h.span
  · cases writes with
    | nil => exact hzero
    | cons write rest => exact absurd (h.below_span write (List.mem_cons_self ..)) (by omega)
  · have hmax : (writes.reverse.map (·.1 + 1)).max? = some cell.span := by
      refine List.max?_eq_some_iff.mpr
        ⟨List.mem_map.mpr ⟨write, List.mem_reverse.mpr hwrite, hspan.symm⟩, fun bound hbound => ?_⟩
      obtain ⟨other, hother, rfl⟩ := List.mem_map.mp hbound
      exact h.below_span other (List.mem_reverse.mp hother)
    rw [hmax, Option.getD_some]

theorem stored (h : cell.Carries fixed writes) (hwrites : ∀ write ∈ writes, write.1 < 2 ^ 32 - 1) :
    cell.Stored := by
  have hinline := h.inline
  have hsize := h.overflow_size
  refine ⟨by omega, ?_⟩
  obtain hzero | ⟨write, hwrite, hspan⟩ := h.span
  · omega
  · have := hwrites write hwrite
    omega

end Carries

end ObjectCell

end MarkPhase
