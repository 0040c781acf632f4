import MarkPhase.Proofs.Histories
import MarkPhase.Proofs.Readings
import MarkPhase.Proofs.Safety

/-!
Strings on heaps that have been built. A range is checked against the characters of its base
when a dependent string is made, and a rope is made of strings that are there, so every
string can be read, whatever calls have been made with whatever arguments. No call and no
marking run changes a string that is there, and with it what it reads as.
-/

namespace MarkPhase

namespace Heap

/-- Strings that can be read stay, and every string can be read after as before. -/
def StillReads (heap next : Heap) : Prop :=
  heap.graph.Readable → next.graph.Readable ∧
    ∀ id cell, heap.graph.string? id = some cell → next.graph.string? id = some cell

instance : IsPreorder Heap StillReads where
  refl _ h := ⟨h, fun _ _ => id⟩
  trans _ _ _ h h' hreadable :=
    have hfirst := h hreadable
    have hsecond := h' hfirst.1
    ⟨hsecond.1, fun id cell hid => hsecond.2 id cell (hfirst.2 id cell hid)⟩

theorem StillReads.of_eq {heap next : Heap} (hstrings : next.graph.strings = heap.graph.strings) :
    heap.StillReads next :=
  fun h => ⟨h.of_eq hstrings, fun id cell hid => by rwa [Graph.string?, hstrings]⟩

/-- A string that can be read is added. -/
theorem StillReads.push {heap next : Heap} {cell : StringCell}
    (hnext : next.graph = heap.graph.withString cell)
    (hnew : heap.graph.Readable →
      ∃ text, (heap.graph.withString cell).Reads ⟨heap.graph.strings.size⟩ text) :
    heap.StillReads next := by
  intro h
  rw [hnext]
  exact ⟨h.push (hnew h), fun _ _ => Graph.string?_withString⟩

end Heap

namespace Builder

open MarkPhase.Graph Heap

theorem stillReads_newString (compartment : CompartmentId) (chars : String) :
    Respects StillReads (newString compartment chars) :=
  .modifyGet fun heap => .push rfl fun _ =>
    ⟨chars, .linear (string?_withString_new heap.graph _) rfl⟩

theorem stillReads_atomize (chars : String) : Respects StillReads (atomize chars) := by
  refine .bind .get fun heap => ?_
  split
  · exact .pure _
  · exact .bind (stillReads_newString .atoms chars) fun id =>
      .bind (.modify fun heap => .of_eq rfl) fun _ => .pure _

/-- The range of a new dependent string is one of its base's text. -/
theorem stillReads_newDependent (compartment : CompartmentId) (base : StringId)
    (start length : Nat) : Respects StillReads (newDependent compartment base start length) := by
  intro heap
  have hrefl : heap.StillReads heap := refl_of _ heap
  unfold newDependent lookUp
  simp only [yields_bind, yields_get]
  cases hchars : heap.graph.linearChars base with
  | error fault => exact hrefl
  | ok chars =>
    simp only [yields_pure]
    refine yields_ite (fun _ => hrefl) fun _ => ?_
    cases hslice : slice? chars start length with
    | none => exact hrefl
    | some text =>
      refine StillReads.push rfl fun h => ⟨text, ?_⟩
      obtain ⟨below, hbelow, hflat⟩ := flat_of_linearChars hchars
      obtain ⟨whole, hwhole⟩ := h base below hbelow
      obtain rfl : whole = chars :=
        Except.ok.inj ((hwhole.linearChars ⟨below, hbelow, hflat⟩).symm.trans hchars)
      exact .dependent (string?_withString_new heap.graph _) rfl
        (Array.getElem?_eq_some_iff.mp hbelow).1
        ⟨below, string?_withString hbelow, hflat⟩ (hwhole.mono fun _ _ => string?_withString) hslice

/-- The length of a new rope is that of its two parts together. -/
theorem stillReads_concat (compartment : CompartmentId) (left right : StringId) :
    Respects StillReads (concat compartment left right) := by
  intro heap
  have hrefl : heap.StillReads heap := refl_of _ heap
  unfold concat
  simp only [yields_bind, yields_get]
  cases hleft : heap.graph.string? left with
  | none => exact hrefl
  | some first =>
    simp only [yields_need_some]
    cases hright : heap.graph.string? right with
    | none => exact hrefl
    | some second =>
      simp only [yields_need_some]
      refine yields_ite (fun _ => hrefl) fun _ => StillReads.push rfl fun h => ?_
      obtain ⟨start, hstart⟩ := h left first hleft
      obtain ⟨rest, hrest⟩ := h right second hright
      refine ⟨start ++ rest, .rope (string?_withString_new heap.graph _) rfl
        (Array.getElem?_eq_some_iff.mp hleft).1 (Array.getElem?_eq_some_iff.mp hright).1
        (hstart.mono fun _ _ => string?_withString) (hrest.mono fun _ _ => string?_withString) ?_⟩
      rw [hstart.length_eq hleft, hrest.length_eq hright]

end Builder

/-- Whatever the call and its arguments, strings stay readable and as they are. -/
theorem Construction.stillReads_perform (call : Construction) :
    Respects Heap.StillReads call.perform := by
  by_cases hkind : call.kind? = some .string
  · cases call with
    | string c chars => exact .bind (Builder.stillReads_newString c chars) fun _ => .pure _
    | atom chars => exact .bind (Builder.stillReads_atomize chars) fun _ => .pure _
    | dependent c base start length =>
      exact .bind (Builder.stillReads_newDependent c base start length) fun _ => .pure _
    | concat c left right => exact .bind (Builder.stillReads_concat c left right) fun _ => .pure _
    | _ => cases hkind
  · exact fun heap => (spares_perform hkind heap).mono
      (fun _ _ hspares => .of_eq hspares.cells) fun _ _ hspares => .of_eq hspares.cells

namespace Heap

theorem stillReads_after {heap : Heap} (call : Construction) : heap.StillReads (heap.after call) :=
  after_of_yields (call.stillReads_perform heap)

/-- Whatever calls are made with whatever arguments, every string can be read. -/
theorem readable_built (history : List Construction) : (built history).graph.Readable := by
  induction history using List.reverseRecOn with
  | nil => exact fun id cell hid => by simp [built, empty, Graph.string?] at hid
  | append_singleton before call ih =>
    simp only [built, List.foldl_append, List.foldl_cons, List.foldl_nil]
    exact (stillReads_after call ih).1

end Heap

/-! What happens later. -/

/-- What may happen to a heap: a building call, a marking run that ends or fails somewhere, or
the clearing of all marks. -/
inductive Happening (ω : Type)
  | build (call : Construction)
  | mark (marker : Marker ω) (commands : List Command)
  | clear

namespace Heap

variable {ω : Type}

/-- The heap after something has happened to it. -/
def onward (heap : Heap) : Happening ω → Heap
  | .build call => heap.after call
  | .mark marker commands =>
    let ledger := match commands.forM (Command.make heap.graph) { heap.ledger, marker with } with
      | .ok _ s => s.toLedger
      | .error _ s => s.toLedger
    { heap with ledger }
  | .clear => heap.clearMarks

theorem stillReads_onward (heap : Heap) (next : Happening ω) :
    heap.StillReads (heap.onward next) := by
  cases next with
  | build call => exact stillReads_after call
  | mark marker commands => exact .of_eq rfl
  | clear => exact .of_eq rfl

theorem stillReads_foldl (heap : Heap) (later : List (Happening ω)) :
    heap.StillReads (later.foldl onward heap) := by
  induction later generalizing heap with
  | nil => exact refl_of _ heap
  | cons next later ih => exact trans_of _ (heap.stillReads_onward next) (ih _)

end Heap

/-- What a string of a heap is made of, and what the program reads it as. -/
structure StringLaws (g : Graph) (id : StringId) (cell : StringCell) : Prop where
  older : ∀ part, g.MadeOf id part → part.index < id.index ∧ g.contains part.thing = true
  flat_base : ∀ base, g.BasedOn id base → g.Flat base
  bottom : g.Flat id → ∃ bottom cell chars, Relation.ReflTransGen g.BasedOn id bottom ∧
    g.string? bottom = some cell ∧ cell.layout = .linear chars
  acyclic : ¬ Relation.TransGen g.MadeOf id id
  /-- The characters of a dependent string are the bytes of its range in those of its base. -/
  dependent : ∀ base start length, cell.layout = .dependent base start length →
    ∃ whole text, g.linearChars base = .ok whole ∧ g.linearChars id = .ok text ∧
      start + length ≤ whole.utf8ByteSize ∧
      text.toByteArray = whole.toByteArray.extract start (start + length)
  /-- A string is flattened to its own characters or to those of its parts, and its length is
  that of the result. -/
  flattened : ∃ text, cell.length = text.utf8ByteSize ∧
    (cell.isRope = false → g.linearChars id = .ok text) ∧
    (fitsMemory cell.length 1 = true → g.flatten id = .ok text ∧
      ∀ left right length, cell.layout = .rope left right length →
        ∃ first second, g.flatten left = .ok first ∧ g.flatten right = .ok second ∧
          text = first ++ second)

namespace Graph

variable {g : Graph} {id : StringId} {cell : StringCell} {text : String}

theorem fitsMemory_of_le {count most : Nat} (h : fitsMemory most 1 = true) (hle : count ≤ most) :
    fitsMemory count 1 = true := by
  have hmost := of_decide_eq_true h
  exact decide_eq_true (by omega)

/-- What the program does with a string that can be read. -/
theorem Reads.laws (h : g.Reads id text) (hid : g.string? id = some cell) :
    StringLaws g id cell where
  older part hpart := by
    obtain ⟨hlt, _, hreads⟩ := h.older hpart
    exact ⟨hlt, hreads.contains⟩
  flat_base _ := h.flat_base
  bottom := h.exists_bottom
  acyclic := h.not_madeOf_self
  dependent base start length hlayout := by
    have hexplained := h.explained hid
    rw [hlayout] at hexplained
    obtain ⟨-, hflat, whole, hwhole, hslice⟩ := hexplained
    have hrope : cell.isRope = false := by rw [StringCell.isRope, hlayout]
    exact ⟨whole, text, hwhole.linearChars hflat, h.linearChars ⟨cell, hid, hrope⟩,
      toByteArray_of_slice hslice⟩
  flattened := by
    refine ⟨text, h.length_eq hid, fun hrope => h.linearChars ⟨cell, hid, hrope⟩, fun hfits => ?_⟩
    rw [h.length_eq hid] at hfits
    refine ⟨h.flatten hfits, fun left right length hlayout => ?_⟩
    have hexplained := h.explained hid
    rw [hlayout] at hexplained
    obtain ⟨-, -, first, second, hfirst, hsecond, -, rfl⟩ := hexplained
    rw [String.utf8ByteSize_append] at hfits
    exact ⟨first, second, hfirst.flatten (fitsMemory_of_le hfits (Nat.le_add_right _ _)),
      hsecond.flatten (fitsMemory_of_le hfits (Nat.le_add_left _ _)), rfl⟩

/-- A string that stays is read as before. -/
theorem Reads.unchanged {g' : Graph} (h : g.Reads id text) (hid : g.string? id = some cell)
    (hsame : ∀ id cell, g.string? id = some cell → g'.string? id = some cell) :
    g'.linearChars id = g.linearChars id ∧ g'.flatten id = g.flatten id := by
  have hid' := hsame id cell hid
  have hreads' := h.mono hsame
  refine ⟨?_, ?_⟩
  · cases hrope : cell.isRope with
    | false => rw [h.linearChars ⟨cell, hid, hrope⟩, hreads'.linearChars ⟨cell, hid', hrope⟩]
    | true =>
      rw [Graph.linearChars, Graph.linearChars, hid, hid']
      cases hlayout : cell.layout with
      | rope => simp only [hlayout]
      | _ => simp [StringCell.isRope, hlayout] at hrope
  · cases hfits : fitsMemory text.utf8ByteSize 1 with
    | true => rw [h.flatten hfits, hreads'.flatten hfits]
    | false =>
      obtain ⟨fault, hfault⟩ := exists_allocationFault? hfits
      rw [Graph.flatten, Graph.flatten, hid, hid']
      simp only [h.length_eq hid, hfault]

end Graph

namespace Heap

variable {ω : Type}

/-- Every string of a heap is readable and reads as it should, whatever calls have built the
heap; a call that fails adds nothing. Later calls and marking runs change none of this. -/
theorem strings_read (history : List Construction) (later : List (Happening ω)) :
    let heap := built history
    let next := later.foldl onward heap
    (∀ (call : Construction) fault stopped, call.perform heap = .error fault stopped →
      ∀ kind, stopped.graph.population kind = heap.graph.population kind) ∧
    ∀ id cell, heap.graph.string? id = some cell →
      StringLaws heap.graph id cell ∧ next.graph.string? id = some cell ∧
      next.graph.linearChars id = heap.graph.linearChars id ∧
      next.graph.flatten id = heap.graph.flatten id := by
  intro heap next
  refine ⟨fun call fault stopped hfails => (call.reverts_perform heap).of_error hfails,
    fun id cell hid => ?_⟩
  obtain ⟨text, hreads⟩ := readable_built history id cell hid
  obtain ⟨-, hsame⟩ := heap.stillReads_foldl later (readable_built history)
  exact ⟨hreads.laws hid, hsame id cell hid, hreads.unchanged hid hsame⟩

/-- A text with a letter of two bytes, ranges of it, a range that would cut the letter in two,
and a rope over a range. -/
def scraps : List Construction :=
  [.compartment "c", .string ⟨1⟩ "añb", .dependent ⟨1⟩ ⟨0⟩ 1 3, .dependent ⟨1⟩ ⟨1⟩ 2 1,
    .dependent ⟨1⟩ ⟨0⟩ 2 1, .concat ⟨1⟩ ⟨2⟩ ⟨0⟩, .dependent ⟨1⟩ ⟨2⟩ 1 0]

theorem strings_read_sample :
    let heap := built scraps
    let later : List (Happening Unit) := [.build (.atom "b"),
      .mark (Launch.sample 0 none).start.toMarker [.step (.call (.unnamed ⟨.string, 3⟩))], .clear]
    let next := later.foldl onward heap
    (∃ stopped, Construction.perform (.concat ⟨1⟩ ⟨9⟩ ⟨0⟩) heap = .error .outOfBounds stopped ∧
      stopped.graph.population .string = 5) ∧
    ∃ cell, heap.graph.string? ⟨2⟩ = some cell ∧ StringLaws heap.graph ⟨2⟩ cell ∧
      next.graph.linearChars ⟨2⟩ = heap.graph.linearChars ⟨2⟩ ∧
      next.graph.flatten ⟨2⟩ = heap.graph.flatten ⟨2⟩ := by
  intro heap later next
  obtain ⟨stopped, hstopped⟩ : ∃ stopped, Construction.perform (.concat ⟨1⟩ ⟨9⟩ ⟨0⟩) heap =
    .error .outOfBounds stopped := Yields.exists_stop (by decide +kernel)
  obtain ⟨hfails, hstrings⟩ := strings_read scraps later
  have hthere : heap.graph.contains (Ref.thing (⟨2⟩ : StringId)) = true := by decide +kernel
  obtain ⟨cell, hcell⟩ := Graph.exists_string hthere
  obtain ⟨hlaws, -, hsame⟩ := hstrings ⟨2⟩ cell hcell
  refine ⟨⟨stopped, hstopped, ?_⟩, cell, hcell, hlaws, hsame⟩
  rw [hfails _ _ _ hstopped .string]
  decide +kernel

example : (built scraps).graph.linearChars ⟨2⟩ = .ok "b" ∧
    (built scraps).graph.flatten ⟨3⟩ = .ok "bañb" ∧
    (built scraps).graph.flatten ⟨4⟩ = .ok "" := by
  decide +kernel

end Heap

end MarkPhase
