import MarkPhase.Proofs.StringHistories

/-!
Atoms over the life of a heap. The map of the atoms and the strings are changed together by the
one call that makes an atom, and neither forgets anything. So each text has one atom, which is
made when the text is first asked for, and which no other call that makes a string gives back,
as long as words of 32 bits tell all strings apart.
-/

namespace MarkPhase

/-- Every string can be read, and every atom is a string of its own text in the compartment of
the atoms. -/
structure Graph.Lettered (g : Graph) : Prop where
  readable : g.Readable
  atoms : ∀ text id, g.atoms.lookup text = some id → g.string? id = some ⟨.atoms, .linear text⟩

namespace Heap

/-- What holds of a later heap. Strings and atoms have stayed, and an atom that was not there
is a string that was not there. -/
structure AtomsLast (heap next : Heap) : Prop where
  lettered : next.graph.Lettered
  strings : ∀ id cell, heap.graph.string? id = some cell → next.graph.string? id = some cell
  atoms : ∀ text id,
    heap.graph.atoms.lookup text = some id → next.graph.atoms.lookup text = some id
  newer : ∀ text id, next.graph.atoms.lookup text = some id →
    heap.graph.atoms.lookup text = some id ∨ heap.graph.strings.size ≤ id.index

/-- No string is lost on the way. -/
theorem size_le_of_strings {heap next : Heap}
    (h : ∀ id cell, heap.graph.string? id = some cell → next.graph.string? id = some cell) :
    heap.graph.strings.size ≤ next.graph.strings.size := by
  by_contra hlt
  have hthere : heap.graph.string? ⟨next.graph.strings.size⟩ = some _ :=
    Array.getElem?_eq_some_iff.mpr ⟨Nat.lt_of_not_le hlt, rfl⟩
  exact Nat.lt_irrefl _ (Array.getElem?_eq_some_iff.mp (h _ _ hthere)).1

theorem AtomsLast.size_le {heap next : Heap} (h : AtomsLast heap next) :
    heap.graph.strings.size ≤ next.graph.strings.size :=
  size_le_of_strings h.strings

theorem StillReads.size_le {heap next : Heap} (h : heap.StillReads next)
    (hreadable : heap.graph.Readable) : heap.graph.strings.size ≤ next.graph.strings.size :=
  size_le_of_strings (h hreadable).2

theorem AtomsLast.trans {heap middle next : Heap} (h : AtomsLast heap middle)
    (h' : AtomsLast middle next) : AtomsLast heap next where
  lettered := h'.lettered
  strings id cell hid := h'.strings id cell (h.strings id cell hid)
  atoms text id hid := h'.atoms text id (h.atoms text id hid)
  newer text id hid := (h'.newer text id hid).elim (h.newer text id)
    fun hle => Or.inr (Nat.le_trans h.size_le hle)

/-- What is lettered stays so, with its atoms, until the strings outnumber the words. -/
structure KeepsAtoms (heap next : Heap) : Prop where
  reads : heap.StillReads next
  lasts : heap.graph.Lettered → next.graph.strings.size ≤ 2 ^ 32 → AtomsLast heap next

instance : IsPreorder Heap KeepsAtoms where
  refl heap :=
    ⟨refl_of StillReads heap, fun h _ => ⟨h, fun _ _ => id, fun _ _ => id, fun _ _ => Or.inl⟩⟩
  trans _ _ _ h h' := by
    refine ⟨trans_of StillReads h.reads h'.reads, fun hlettered hwords => ?_⟩
    obtain ⟨hreadable, -⟩ := h.reads hlettered.readable
    have hfirst := h.lasts hlettered (Nat.le_trans (h'.reads.size_le hreadable) hwords)
    exact hfirst.trans (h'.lasts hfirst.lettered hwords)

/-- Strings stay and the atoms are the same. -/
theorem KeepsAtoms.of_atoms_eq {heap next : Heap} (hstrings : heap.StillReads next)
    (hatoms : next.graph.atoms = heap.graph.atoms) : heap.KeepsAtoms next := by
  refine ⟨hstrings, fun h _ => ?_⟩
  obtain ⟨hreadable, hsame⟩ := hstrings h.readable
  exact {
    lettered := ⟨hreadable, fun text id hid => hsame id _ (h.atoms text id (hatoms ▸ hid))⟩
    strings := hsame
    atoms := fun _ _ hid => hatoms ▸ hid
    newer := fun _ _ hid => Or.inl (hatoms ▸ hid) }

/-- The atoms of both heaps are the same. -/
def SameAtoms (heap next : Heap) : Prop :=
  next.graph.atoms = heap.graph.atoms

instance : IsPreorder Heap SameAtoms where
  refl _ := rfl
  trans _ _ _ h h' := Eq.trans h' h

/-- The heap with the atom of a text that had none. -/
def withAtom (heap : Heap) (chars : String) : Heap :=
  { heap with graph := { heap.graph.withString ⟨.atoms, .linear chars⟩ with
    atoms := (chars, ⟨toWord heap.graph.strings.size⟩) :: heap.graph.atoms } }

theorem lookup_withAtom (heap : Heap) (chars text : String) :
    (heap.withAtom chars).graph.atoms.lookup text =
      if text = chars then some ⟨toWord heap.graph.strings.size⟩
      else heap.graph.atoms.lookup text := by
  change List.lookup text ((chars, _) :: heap.graph.atoms) = _
  rw [List.lookup_cons]
  by_cases heq : text = chars
  · rw [if_pos heq, heq, beq_self_eq_true]
  · rw [if_neg heq, beq_false_of_ne heq]

theorem atomsLast_withAtom {heap : Heap} {chars : String}
    (hnew : heap.graph.atoms.lookup chars = none) (h : heap.graph.Lettered)
    (hwords : (heap.withAtom chars).graph.strings.size ≤ 2 ^ 32) :
    AtomsLast heap (heap.withAtom chars) := by
  have hword : toWord heap.graph.strings.size = heap.graph.strings.size := by
    apply toWord_of_lt
    rwa [withAtom, Graph.withString, Array.size_push, Nat.succ_le_iff] at hwords
  have hstays : ∀ id cell, heap.graph.string? id = some cell →
      (heap.withAtom chars).graph.string? id = some cell := fun _ _ => Graph.string?_withString
  have hadded : (heap.withAtom chars).graph.string? ⟨heap.graph.strings.size⟩ =
      some ⟨.atoms, .linear chars⟩ := Graph.string?_withString_new heap.graph _
  have hlookup := heap.lookup_withAtom chars
  rw [hword] at hlookup
  refine ⟨⟨?_, fun text id hid => ?_⟩, hstays, fun text id hid => ?_, fun text id hid => ?_⟩
  · exact (h.readable.push ⟨chars, .linear (Graph.string?_withString_new heap.graph _) rfl⟩).of_eq
      rfl
  · rw [hlookup] at hid
    split at hid
    · rename_i heq
      obtain rfl := Option.some.inj hid
      exact heq ▸ hadded
    · exact hstays id _ (h.atoms text id hid)
  · rw [hlookup, if_neg, hid]
    rintro rfl
    rw [hnew] at hid
    cases hid
  · rw [hlookup] at hid
    split at hid
    · obtain rfl := Option.some.inj hid
      exact Or.inr (Nat.le_refl _)
    · exact Or.inl hid

end Heap

/-! What calls do to the atoms. -/

namespace Builder

open Heap (SameAtoms)

theorem sameAtoms_edit {kind : Kind} (ref : Ref kind) {change : Graph → Graph}
    (h : ∀ g, (change g).atoms = g.atoms) : Respects SameAtoms (edit ref change) :=
  .bind .get fun _ => .ite (.modify fun heap => h heap.graph) (.throw _)

theorem sameAtoms_newDependent (compartment : CompartmentId) (base : StringId)
    (start length : Nat) : Respects SameAtoms (newDependent compartment base start length) := by
  have hchars : Respects SameAtoms (lookUp fun g => g.linearChars base) := by
    refine .bind .get fun heap => ?_
    split
    · exact .pure _
    · exact .throw _
  refine .bind hchars fun chars => .check ?_
  split
  · exact .modifyGet fun _ => rfl
  · exact .throw _

theorem sameAtoms_setSlot (object : ObjectId) (index : Nat) (value : Value) :
    Respects SameAtoms (setSlot object index value) := by
  refine .bind .get fun heap => .bind (.need _) fun cell =>
    .check (.bind (.allocate _ _) fun _ => ?_)
  split
  · exact sameAtoms_edit object fun _ => rfl
  · exact .throw _

theorem sameAtoms_newScript (script : ScriptCell) : Respects SameAtoms (newScript script) := by
  have hadd : Respects SameAtoms (Builder.add fun g =>
      { g with scripts := g.scripts.push script } : Builder ScriptId) := .modifyGet fun _ => rfl
  unfold newScript
  split
  · exact .bind (.modify fun _ => rfl) fun _ => hadd
  · exact hadd

end Builder

namespace Construction

open Heap Builder

/-- Only the call that makes atoms has to do with them. -/
theorem sameAtoms_perform {call : Construction} (h : ∀ chars, call ≠ .atom chars) :
    Respects SameAtoms call.perform := by
  have hmade : ∀ {kind : Kind} {part : Builder (Ref kind)}, Respects SameAtoms part →
      Respects SameAtoms (made part) := fun hpart => .bind hpart fun _ => .pure _
  have hdone : ∀ {part : Builder Unit}, Respects SameAtoms part →
      Respects SameAtoms (done part) := fun hpart => .bind hpart fun _ => .pure _
  cases call with
  | atom chars => exact absurd rfl (h chars)
  | compartment name =>
    exact .bind (.bind (.modifyGet fun _ => rfl) fun _ => .bind (.modify fun _ => rfl) fun _ =>
      .pure _) fun _ => .pure _
  | dependent c base start length => exact hmade (sameAtoms_newDependent c base start length)
  | concat c left right =>
    exact hmade (.bind .get fun _ => .bind (.need _) fun _ => .bind .get fun _ =>
      .bind (.need _) fun _ => .check (.modifyGet fun _ => rfl))
  | ownedBaseShape twin =>
    exact hmade (.bind .get fun _ => .bind (.need _) fun _ => .check (.modifyGet fun _ => rfl))
  | object c type lineage fixed =>
    exact hmade (.bind (.allocate _ _) fun _ => .modifyGet fun _ => rfl)
  | slot owner index value => exact hdone (sameAtoms_setSlot owner index value)
  | script cell => exact hmade (sameAtoms_newScript cell)
  | xmlKid node kid =>
    exact hdone (.bind (sameAtoms_edit kid fun _ => rfl) fun _ =>
      sameAtoms_edit node fun _ => rfl)
  | xmlAttr node attr =>
    exact hdone (.bind (sameAtoms_edit attr fun _ => rfl) fun _ =>
      sameAtoms_edit node fun _ => rfl)
  | string | baseShape | shape | typeObject | xml => exact hmade (.modifyGet fun _ => rfl)
  | singleton | newScript | typeProperty | objectShape | element | privateThing | xmlName
  | xmlValue | xmlObject => exact hdone (sameAtoms_edit _ fun _ => rfl)

/-- The atom of a text is the one that it has, or else a new string. -/
theorem yields_atom (heap : Heap) (chars : String) :
    Yields (Construction.atom chars).perform heap (fun product next =>
      ∃ id, product = .thing id.thing ∧
        ((heap.graph.atoms.lookup chars = some id ∧ next = heap) ∨
          (heap.graph.atoms.lookup chars = none ∧ id = ⟨toWord heap.graph.strings.size⟩ ∧
            next = heap.withAtom chars))) fun _ _ => False := by
  unfold perform made atomize
  simp only [yields_bind, yields_get]
  cases hlookup : heap.graph.atoms.lookup chars with
  | some id => exact ⟨id, rfl, Or.inl ⟨rfl, rfl⟩⟩
  | none => exact ⟨_, rfl, Or.inr ⟨rfl, rfl, rfl⟩⟩

theorem keepsAtoms_perform (call : Construction) : Respects KeepsAtoms call.perform := by
  intro heap
  by_cases hcall : ∃ chars, call = .atom chars
  · obtain ⟨chars, rfl⟩ := hcall
    refine ((stillReads_perform _ heap).and (yields_atom heap chars)).mono
      (fun product next hnext => ?_) fun _ _ h => h.2.elim
    obtain ⟨hreads, id, -, ⟨-, rfl⟩ | ⟨hnew, -, rfl⟩⟩ := hnext
    · exact refl_of KeepsAtoms next
    · exact ⟨hreads, atomsLast_withAtom hnew⟩
  · have hatoms := sameAtoms_perform (fun chars heq => hcall ⟨chars, heq⟩) heap
    exact ((stillReads_perform call heap).and hatoms).mono
      (fun _ _ h => .of_atoms_eq h.1 h.2) fun _ _ h => .of_atoms_eq h.1 h.2

end Construction

/-! The life of a heap. -/

namespace Heap

variable {ω : Type}

/-- What has become of a new heap to which all this has happened. -/
def lived (life : List (Happening ω)) : Heap :=
  life.foldl onward empty

theorem lived_append (earlier later : List (Happening ω)) :
    lived (earlier ++ later) = later.foldl onward (lived earlier) :=
  List.foldl_append ..

theorem keepsAtoms_foldl (heap : Heap) (later : List (Happening ω)) :
    heap.KeepsAtoms (later.foldl onward heap) := by
  induction later generalizing heap with
  | nil => exact refl_of _ heap
  | cons next later ih =>
    refine trans_of _ ?_ (ih (heap.onward next))
    cases next with
    | build call => exact after_of_yields (call.keepsAtoms_perform heap)
    | mark marker commands => exact .of_atoms_eq (.of_eq rfl) rfl
    | clear => exact .of_atoms_eq (.of_eq rfl) rfl

theorem lettered_empty : empty.graph.Lettered where
  readable id cell hid := by simp [empty, Graph.string?] at hid
  atoms text id hid := by cases hid

theorem keepsAtoms_append (earlier later : List (Happening ω)) :
    KeepsAtoms (lived earlier) (lived (earlier ++ later)) :=
  lived_append earlier later ▸ keepsAtoms_foldl _ later

theorem readable_lived (life : List (Happening ω)) : (lived life).graph.Readable :=
  ((keepsAtoms_foldl _ life).reads lettered_empty.readable).1

/-- The strings of a life have only become more. -/
theorem size_lived_le (earlier later : List (Happening ω)) :
    (lived earlier).graph.strings.size ≤ (lived (earlier ++ later)).graph.strings.size :=
  (keepsAtoms_append earlier later).reads.size_le (readable_lived earlier)

/-- Words of 32 bits tell the strings apart that there are at the end of a life. -/
def Numbered (life : List (Happening ω)) : Prop :=
  (lived life).graph.strings.size ≤ 2 ^ 32

theorem Numbered.of_append {earlier later : List (Happening ω)} (h : Numbered (earlier ++ later)) :
    Numbered earlier :=
  Nat.le_trans (size_lived_le earlier later) h

theorem lettered_lived {life : List (Happening ω)} (h : Numbered life) :
    (lived life).graph.Lettered :=
  ((empty.keepsAtoms_foldl life).lasts lettered_empty h).lettered

theorem atomsLast_append {earlier later : List (Happening ω)} (h : Numbered (earlier ++ later)) :
    AtomsLast (lived earlier) (lived (earlier ++ later)) :=
  (keepsAtoms_append earlier later).lasts (lettered_lived h.of_append) h

theorem after_eq {heap next : Heap} {call : Construction} {product : Product}
    (h : call.perform heap = .ok product next) : heap.after call = next := by
  unfold after EStateM.run
  rw [h]

/-- At some point of the life of a heap the call has been made and has given back the string. -/
def Gave (life : List (Happening ω)) (call : Construction) (id : StringId) : Prop :=
  ∃ earlier later next, life = earlier ++ .build call :: later ∧
    call.perform (lived earlier) = .ok (.thing id.thing) next

/-- At the end of the life of a heap there is a heap that the call has left behind. -/
theorem lived_call {earlier later : List (Happening ω)} {call : Construction} {next : Heap}
    {product : Product} (h : call.perform (lived earlier) = .ok product next)
    (hwords : Numbered (earlier ++ .build call :: later)) :
    AtomsLast next (lived (earlier ++ .build call :: later)) := by
  have hnext : lived (earlier ++ [.build call]) = next := by
    rw [lived_append, List.foldl_cons, List.foldl_nil]
    exact after_eq h
  rw [List.append_cons] at hwords ⊢
  exact hnext ▸ atomsLast_append hwords

/-- What has been given back as the atom of a text is its atom ever after. -/
theorem Gave.lookup_atom {life : List (Happening ω)} {chars : String} {id : StringId}
    (h : Gave life (.atom chars) id) (hwords : Numbered life) :
    (lived life).graph.atoms.lookup chars = some id := by
  obtain ⟨earlier, later, next, rfl, hperform⟩ := h
  obtain ⟨other, hother, hnext⟩ := (Construction.yields_atom (lived earlier) chars).of_ok hperform
  obtain rfl : id = other := Ref.thing_injective (Product.thing.inj hother)
  refine (lived_call hperform hwords).atoms chars id ?_
  obtain ⟨hid, rfl⟩ | ⟨-, rfl, rfl⟩ := hnext
  · exact hid
  · rw [lookup_withAtom, if_pos rfl]

/-- What the atom of a text reads as. -/
theorem Gave.reads {life : List (Happening ω)} {chars : String} {id : StringId}
    (h : Gave life (.atom chars) id) (hwords : Numbered life) :
    let g := (lived life).graph
    g.string? id = some ⟨.atoms, .linear chars⟩ ∧ g.linearChars id = .ok chars ∧
      (fitsMemory chars.utf8ByteSize 1 = true → g.flatten id = .ok chars) := by
  intro g
  have hid := (lettered_lived hwords).atoms chars id (h.lookup_atom hwords)
  have hreads : g.Reads id chars := .linear hid rfl
  exact ⟨hid, hreads.linearChars ⟨_, hid, rfl⟩, hreads.flatten⟩

end Heap

end MarkPhase
