import MarkPhase.Proofs.Dangling
import MarkPhase.Proofs.Settlements
import MarkPhase.Proofs.Upkeep

/-!
What a marker does on the way down a lineage besides going down. For each shape it marks the
base shape and what names the property, with whatever strings and objects these lead to, and
none of this marks a shape, scans one or so much as tries to. It may fail where something is
named that is not there, or for want of memory for the stack.
-/

namespace MarkPhase

variable {ω α β : Type}

theorem KindCounts.count_bump (counts : KindCounts) (kind other : Kind) :
    (counts.bump kind).count other = counts.count other + if kind = other then 1 else 0 := by
  unfold bump count
  rw [Fin.getElem_fin, Fin.getElem_fin, Fin.getElem_fin, Vector.getElem_set]
  by_cases heq : kind = other
  · subst heq
    rw [if_pos rfl, if_pos rfl]
  · have hplace : ¬ (kind.place : Nat) = other.place :=
      fun hsame => heq (Kind.place_injective (Fin.ext hsame))
    rw [if_neg hplace, if_neg heq, Nat.add_zero]

namespace Marking

/-- From `s` to `t` the marker has taken these shapes and no others: it has marked each of them
in its colour and counted a scan of it. -/
structure Takes (line : List ShapeId) (s t : Marking ω) : Prop where
  proceeds : s.Proceeds t
  filter : t.context.compartment = s.context.compartment
  color : t.color = s.color
  shades : ∀ id : ShapeId,
    t.marks.get id.thing = if id ∈ line then .marked s.color else s.marks.get id.thing
  scanned : t.scanned.count .shape = s.scanned.count .shape + line.length

namespace Takes

variable {s t u : Marking ω} {line rest : List ShapeId}

theorem append (h : s.Takes line t) (h' : t.Takes rest u) : s.Takes (line ++ rest) u where
  proceeds := trans_of _ h.proceeds h'.proceeds
  filter := h'.filter.trans h.filter
  color := h'.color.trans h.color
  shades id := by
    rw [h'.shades, h.shades, h.color]
    by_cases hrest : id ∈ rest
    · rw [if_pos hrest, if_pos (List.mem_append_right _ hrest)]
    · have hmem : id ∈ line ++ rest ↔ id ∈ line := by
        rw [List.mem_append]
        exact or_iff_left hrest
      simp only [if_neg hrest, hmem]
  scanned := by rw [h'.scanned, h.scanned, List.length_append, Nat.add_assoc]

instance : IsPreorder (Marking ω) (Takes []) where
  refl s := ⟨refl_of _ s, rfl, rfl, fun _ => (if_neg List.not_mem_nil).symm, rfl⟩
  trans _ _ _ h h' := h.append h'

theorem nothing (hproceeds : s.Proceeds t)
    (hfilter : t.context.compartment = s.context.compartment) (hcolor : t.color = s.color)
    (hmarks : t.marks = s.marks) (hscanned : t.scanned = s.scanned) : s.Takes [] t :=
  ⟨hproceeds, hfilter, hcolor, fun _ => by rw [hmarks, if_neg List.not_mem_nil],
    by rw [hscanned]; rfl⟩

/-- Another thing is marked. -/
theorem set (s : Marking ω) {thing : Thing} (hkind : thing.kind ≠ .shape) (color : Color) :
    s.Takes [] { s with marks := s.marks.set thing (.marked color) } where
  proceeds := .set s thing color
  filter := rfl
  color := rfl
  shades id := by
    have hne : thing ≠ id.thing := fun heq => hkind (by rw [heq]; rfl)
    rw [ThingTable.get_set, if_neg hne, if_neg List.not_mem_nil]
  scanned := rfl

end Takes

end Marking

namespace MarkM

open Marking

variable {thing : Thing}

theorem sidesteps_color : Respects (Takes []) (color : MarkM ω Color) :=
  .bind .get fun _ => .pure _

theorem sidesteps_claim (g : Graph) (hkind : thing.kind ≠ .shape) (color : Color) :
    Respects (Takes []) (claim g thing color : MarkM ω Bool) :=
  fun s => yields_claim_of g (refl_of (Takes []) s) (fun _ => refl_of (Takes []) s)
    fun _ => .set s hkind color

theorem sidesteps_noteScan (hkind : thing.kind ≠ .shape) :
    Respects (Takes []) (noteScan thing : MarkM ω Unit) :=
  .modify fun s => {
    proceeds := .of_eq rfl rfl rfl
    filter := rfl
    color := rfl
    shades := fun _ => (if_neg List.not_mem_nil).symm
    scanned := (KindCounts.count_bump ..).trans (by rw [if_neg hkind]; rfl) }

theorem sidesteps_delay (entry : StackEntry) :
    Respects (Takes []) (delay entry : MarkM ω Unit) := by
  refine .bind .get fun _ => .ite (.bind (.modifyGet fun s => ?_) fun _ =>
    .ite (.bind (.modify fun s => ?_) fun _ => .modify fun s => ?_) (.pure _)) (.throw _)
  · exact .nothing ⟨fun h => ⟨h.stack, (h.delayed.add _).1⟩, rfl, rfl, fun _ => id⟩ rfl rfl rfl rfl
  · exact .nothing (.of_eq rfl rfl rfl) rfl rfl rfl rfl
  · exact .nothing (.of_eq rfl rfl rfl) rfl rfl rfl rfl

theorem sidesteps_isRefused (entry : StackEntry) :
    Respects (Takes []) (isRefused entry : MarkM ω Bool) := by
  refine .modifyGet fun s => ?_
  cases s.watcher with
  | none => exact refl_of (Takes []) s
  | some watcher => exact .nothing (.of_eq rfl rfl rfl) rfl rfl rfl rfl

theorem sidesteps_popEntry : Respects (Takes []) (popEntry : MarkM ω (Option StackEntry)) :=
  .modifyGet fun s => .nothing (admits_proceeds.pop s) rfl rfl rfl rfl

theorem sidesteps_shadeTwin (g : Graph) (id : BaseShapeId) (base : BaseShapeCell)
    (twinId : BaseShapeId) : Respects (Takes []) (shadeTwin g id base twinId : MarkM ω Unit) := by
  refine .bind (.need _) fun twin => .ite (.bind sidesteps_color fun color =>
    .modify fun s => ?_) (.throw _)
  split
  · exact refl_of (Takes []) s
  · exact .set s (by simp [Ref.thing]) color

end MarkM

/-! The same with a chronicle. -/

/-- A shape is scanned, or it is tried to mark one. -/
def Event.onShape : Event → Bool
  | .scanned thing => thing.kind = .shape
  | .tried _ thing => thing.kind = .shape
  | _ => false

namespace Chronicle

/-- What the chronicle says of the marking of shapes, the oldest event first. -/
def course (c : Chronicle ω) : List Event :=
  (c.events.filter Event.onShape).reverse

/-- The marker has taken the shapes in the course of these events. -/
structure Takes (steps : List Event) (line : List ShapeId) (c d : Chronicle ω) : Prop where
  marking : c.toMarking.Takes line d.toMarking
  course : d.course = c.course ++ steps

theorem Takes.append {steps after : List Event} {line rest : List ShapeId} {c d e : Chronicle ω}
    (h : c.Takes steps line d) (h' : d.Takes after rest e) :
    c.Takes (steps ++ after) (line ++ rest) e where
  marking := h.marking.append h'.marking
  course := by rw [h'.course, h.course, List.append_assoc]

/-- Nothing has happened to shapes. -/
abbrev Sidesteps : Chronicle ω → Chronicle ω → Prop :=
  Takes [] []

instance : IsPreorder (Chronicle ω) Sidesteps where
  refl c := ⟨refl_of (Marking.Takes []) c.toMarking, (List.append_nil _).symm⟩
  trans _ _ _ h h' := h.append h'

theorem sidesteps_quiet (c : Chronicle ω) (t : Marking ω) (h : c.toMarking.Takes [] t) :
    c.Sidesteps { c with toMarking := t } :=
  ⟨h, (List.append_nil _).symm⟩

theorem course_cons (c : Chronicle ω) (event : Event) :
    Chronicle.course { c with events := event :: c.events } =
      c.course ++ if event.onShape then [event] else [] := by
  unfold course
  cases hevent : event.onShape with
  | true => rw [List.filter_cons, if_pos hevent, List.reverse_cons, if_pos rfl]
  | false =>
    rw [List.filter_cons, hevent, if_neg Bool.false_ne_true, if_neg Bool.false_ne_true,
      List.append_nil]

end Chronicle

namespace ChronM

open Chronicle

section Sidesteps

variable {g : Graph} {parent : Option Thing} {thing : Thing}

theorem sidesteps_quietly {m : MarkM ω α} (hm : Respects (Marking.Takes []) m) :
    Respects Sidesteps (quietly m) :=
  respects_quietly sidesteps_quiet hm

theorem sidesteps_tell {event : Event} (h : event.onShape = false) :
    Respects Sidesteps (tell event : ChronM ω Unit) := by
  intro c
  refine ⟨refl_of (Marking.Takes []) c.toMarking, ?_⟩
  rw [course_cons, h, if_neg Bool.false_ne_true]

theorem sidesteps_sight (thing : Thing) : Respects Sidesteps (sight thing : ChronM ω Unit) :=
  fun c => ⟨refl_of (Marking.Takes []) c.toMarking, (List.append_nil _).symm⟩

theorem sidesteps_color : Respects Sidesteps (quietly MarkM.color : ChronM ω Color) :=
  sidesteps_quietly MarkM.sidesteps_color

theorem sidesteps_attempt {kind : Kind} (hkind : kind ≠ .shape) (id : Ref kind) (color : Color) :
    Respects Sidesteps (attempt g parent id.thing color : ChronM ω Bool) :=
  .bind (sidesteps_tell (decide_eq_false hkind)) fun _ =>
    sidesteps_quietly (MarkM.sidesteps_claim g hkind color)

theorem sidesteps_noteScan (hkind : thing.kind ≠ .shape) :
    Respects Sidesteps (noteScan thing : ChronM ω Unit) :=
  .bind (sidesteps_sight thing) fun _ => .bind (sidesteps_tell (decide_eq_false hkind)) fun _ =>
    sidesteps_quietly (MarkM.sidesteps_noteScan hkind)

theorem sidesteps_pushEntry (entry : StackEntry) :
    Respects Sidesteps (pushEntry entry : ChronM ω Unit) :=
  respects_pushEntry sidesteps_quiet MarkM.sidesteps_delay (fun _ => sidesteps_tell rfl)
    MarkM.sidesteps_isRefused
    (fun s entry hadmits => .nothing (Marking.admits_proceeds.extend s entry hadmits) rfl rfl rfl
      rfl)
    (fun _ => sidesteps_tell rfl) entry

theorem sidesteps_popEntry : Respects Sidesteps (popEntry : ChronM ω (Option StackEntry)) :=
  .bind (sidesteps_quietly .get) fun _ => .bind (sidesteps_tell rfl) fun _ =>
    sidesteps_quietly MarkM.sidesteps_popEntry

theorem sidesteps_pushObject (id : ObjectId) :
    Respects Sidesteps (pushObject g parent id : ChronM ω Unit) :=
  .bind sidesteps_color fun _ => .bind (sidesteps_attempt (by decide) _ _) fun _ =>
    .ite (sidesteps_pushEntry _) (.pure _)

/-! Strings. -/

theorem sidesteps_scanLinear (steps : Nat) (id : StringId) :
    Respects Sidesteps (scanLinear g steps id : ChronM ω Unit) := by
  induction steps generalizing id with
  | zero => exact .throw .endless
  | succ steps ih =>
    refine .bind (sidesteps_noteScan nofun) fun _ => .bind (.need _) fun string => ?_
    cases string.base? with
    | none => exact .pure _
    | some base =>
      exact .bind (.need _) fun _ => .check <|
        .bind (sidesteps_attempt (by decide) _ _) fun _ => .ite (ih _) (.pure _)

theorem sidesteps_enterPart (part : StringId) :
    Respects Sidesteps (enterPart g parent part : ChronM ω (Option StringId)) :=
  .bind (sidesteps_attempt (by decide) _ _) fun _ => .ite
    (.bind (.need _) fun _ => .ite (.pure _) (.bind (sidesteps_scanLinear _ _) fun _ => .pure _))
    (.pure _)

theorem sidesteps_scanRope (depth steps : Nat) (id : StringId) :
    Respects Sidesteps (scanRope g depth steps id : ChronM ω Unit) := by
  induction steps generalizing id with
  | zero => exact .throw .endless
  | succ steps ih =>
    refine .bind (sidesteps_noteScan nofun) fun _ => .bind (.need _) fun string => ?_
    cases string.parts? with
    | none => exact .throw _
    | some parts =>
      refine .bind (sidesteps_enterPart _) fun last => .bind (sidesteps_enterPart _) fun first => ?_
      cases first with
      | none =>
        cases last with
        | none =>
          refine .bind (sidesteps_quietly .get) fun s => .ite ?_ (.pure _)
          refine .bind sidesteps_popEntry fun entry => ?_
          match entry with
          | some (.rope next) => exact ih next
          | none => exact .throw _
          | some (.object _) => exact .throw _
          | some (.typeObject _) => exact .throw _
          | some (.xml _) => exact .throw _
          | some (.values _) => exact .throw _
        | some next => exact ih next
      | some next =>
        cases last with
        | none => exact ih next
        | some waiting => exact .bind (sidesteps_pushEntry _) fun _ => ih next

theorem sidesteps_pushString (id : StringId) :
    Respects Sidesteps (pushString g parent id : ChronM ω Unit) :=
  .bind (sidesteps_attempt (by decide) _ _) fun _ => .ite
    (.bind (.need _) fun _ => .ite
      (.bind (sidesteps_quietly .get) fun _ => sidesteps_scanRope _ _ _) (sidesteps_scanLinear _ _))
    (.pure _)

end Sidesteps

end ChronM

/-! What may stop a marker on the way. -/

/-- Wherever the move stops, the chronicle has gone on as `R` tells, and if all was in order the
move fails only for one of the reasons that `faults` gives for the state before it. -/
def ChronM.Goes (R : Chronicle ω → Chronicle ω → Prop) (faults : Marking ω → Fault → Prop)
    (m : ChronM ω α) : Prop :=
  ∀ c, Yields m c (fun _ => R c)
    fun fault d => R c d ∧ (c.Orderly → faults c.toMarking fault)

/-- What `R` relates proceeds, and what may stop a marker that proceeds might have stopped it
before. -/
structure Chronicle.Heeds (R : Chronicle ω → Chronicle ω → Prop)
    (faults : Marking ω → Fault → Prop) : Prop where
  proceeds : ∀ c d, R c d → c.toMarking.Proceeds d.toMarking
  earlier : ∀ s t fault, Marking.Proceeds s t → faults t fault → faults s fault

namespace ChronM.Goes

variable {R : Chronicle ω → Chronicle ω → Prop} {faults : Marking ω → Fault → Prop}
variable {m : ChronM ω α} {f : α → ChronM ω β} {c d : Chronicle ω} {fault : Fault}

/-- What holds of a fault later on held of it before. -/
theorem of_later (hheeds : Chronicle.Heeds R faults) (h : c.toMarking.Proceeds d.toMarking)
    (hlater : d.Orderly → faults d.toMarking fault) (horderly : c.Orderly) :
    faults c.toMarking fault :=
  hheeds.earlier _ _ fault h (hlater (h.orderly horderly))

variable [IsPreorder (Chronicle ω) R]

protected theorem bind (hheeds : Chronicle.Heeds R faults) (hm : Goes R faults m)
    (hf : ∀ a, Goes R faults (f a)) : Goes R faults (m >>= f) := by
  intro c
  rw [yields_bind]
  refine (hm c).mono (fun a d hd => ?_) fun _ _ => id
  exact (hf a d).mono (fun _ _ => trans_of _ hd) fun _ _ hend =>
    ⟨trans_of _ hd hend.1, of_later hheeds (hheeds.proceeds c d hd) hend.2⟩

protected theorem pure (a : α) : Goes R faults (pure a : ChronM ω α) :=
  fun c => refl_of R c

omit [IsPreorder (Chronicle ω) R] in
protected theorem ite {p : Prop} [Decidable p] {n : ChronM ω α} (hthen : Goes R faults m)
    (helse : Goes R faults n) : Goes R faults (if p then m else n) :=
  fun c => yields_ite (fun _ => hthen c) fun _ => helse c

/-- What has to be found is found, or there is a reason to stop. -/
theorem need {found : Option α} (hmissing : found = none → ∀ s, faults s .outOfBounds)
    (hf : ∀ a, found = some a → Goes R faults (f a)) :
    Goes R faults (MarkPhase.need found >>= f) := by
  cases found with
  | none => exact fun c => ⟨refl_of R c, fun _ => hmissing rfl c.toMarking⟩
  | some a => exact hf a rfl

omit [IsPreorder (Chronicle ω) R] in
theorem of_respects (h : Respects R m)
    (hfaults : ∀ c : Chronicle ω, c.Orderly → Yields m c (fun _ _ => True)
      fun fault _ => faults c.toMarking fault) : Goes R faults m := by
  intro c
  by_cases horderly : c.Orderly
  · exact ((h c).and (hfaults c horderly)).mono (fun _ _ hend => hend.1)
      fun _ _ hend => ⟨hend.1, fun _ => hend.2⟩
  · exact (h c).mono (fun _ _ => id) fun _ _ hend => ⟨hend, fun hgiven => absurd hgiven horderly⟩

omit [IsPreorder (Chronicle ω) R] in
/-- A move that never fails. -/
theorem of_safe (h : Respects R m) (hsafe : ∀ c, Yields m c (fun _ _ => True) fun _ _ => False) :
    Goes R faults m :=
  .of_respects h fun c _ => (hsafe c).mono (fun _ _ => id) fun _ _ => False.elim

end ChronM.Goes

namespace Graph

/-- The fault is for something named that is not there, or for want of memory for the stack. -/
def Halts (g : Graph) (top : ShapeId) (s : Marking ω) (fault : Fault) : Prop :=
  (fault = .outOfBounds ∧ ∃ thing, g.Names top thing ∧ g.contains thing = false) ∨
    allocationFault? s.stack.segmentSize s.stack.itemBytes = some fault

/-- The move leaves shapes alone, and it fails only for one of these reasons. -/
abbrev Crosses (g : Graph) (top : ShapeId) (m : ChronM ω α) : Prop :=
  ChronM.Goes Chronicle.Sidesteps (g.Halts top) m

variable {g : Graph} {top : ShapeId}

theorem heeds_halts : Chronicle.Heeds (ω := ω) Chronicle.Sidesteps (g.Halts top) where
  proceeds _ _ h := h.marking.proceeds
  earlier s t fault h hfault := by
    unfold Halts at hfault ⊢
    rwa [h.segmentSize, h.itemBytes] at hfault

namespace Crosses

variable {m : ChronM ω α} {f : α → ChronM ω β}

protected theorem bind (hm : g.Crosses top m) (hf : ∀ a, g.Crosses top (f a)) :
    g.Crosses top (m >>= f) :=
  ChronM.Goes.bind heeds_halts hm hf

/-- What has to be found is found, or a named thing is missing. -/
protected theorem need {found : Option α} {thing : Thing} (h : g.Names top thing)
    (hmissing : found = none → g.contains thing = false)
    (hf : ∀ a, found = some a → g.Crosses top (f a)) :
    g.Crosses top (MarkPhase.need found >>= f) :=
  ChronM.Goes.need (fun hnone _ => .inl ⟨rfl, thing, h, hmissing hnone⟩) hf

end Crosses

end Graph

namespace ChronM

open Chronicle Marking MarkPhase.Graph

variable {g : Graph} {top : ShapeId} {parent : Option Thing}

theorem crosses_color : g.Crosses top (quietly MarkM.color : ChronM ω Color) :=
  .of_safe sidesteps_color fun _ => trivial

theorem crosses_noteScan {thing : Thing} (hkind : thing.kind ≠ .shape) :
    g.Crosses top (noteScan thing : ChronM ω Unit) :=
  .of_safe (sidesteps_noteScan hkind) fun _ => trivial

/-- An attempt at a thing that is not there fails. -/
theorem yields_attempt_of_missing {thing : Thing} (h : g.contains thing = false) (color : Color)
    (c : Chronicle ω) : Yields (attempt g parent thing color) c (fun _ _ => False)
      fun fault d => fault = .outOfBounds ∧
        d = { c with events := .tried parent thing :: c.events } := by
  have hnone : g.compartmentOf? thing = none :=
    compartmentOf?_eq_none (Bool.eq_false_iff.mp h)
  rw [attempt, yields_bind, yields_tell, yields_quietly, MarkM.claim, yields_bind, hnone]
  exact ⟨rfl, rfl⟩

/-- After an attempt the thing is marked if the attempt was successful. -/
theorem yields_attempt_of_named {thing : Thing} (h : g.Names top thing) (color : Color)
    (c : Chronicle ω) : Yields (attempt g parent thing color) c
      (fun claimed d => d.stack = c.stack ∧ (claimed = true → d.marks.isMarked thing = true))
      fun fault _ => g.Halts top c.toMarking fault := by
  by_cases hthing : g.contains thing = true
  · refine (yields_attempt parent hthing color).mono (fun claimed d hend => ?_)
      fun _ _ => False.elim
    obtain ⟨hrests, hshading⟩ := hend
    refine ⟨hrests.stack, fun hclaimed => ?_⟩
    subst hclaimed
    generalize hafter : d.marks = after at hshading
    cases hshading
    exact (ThingTable.isMarked_set ..).mpr (Or.inl rfl)
  · have hmissing := Bool.eq_false_of_not_eq_true hthing
    refine (yields_attempt_of_missing hmissing color c).mono (fun _ _ => False.elim) ?_
    rintro fault _ ⟨hfault, -⟩
    exact .inl ⟨hfault, thing, h, hmissing⟩

theorem crosses_attempt {kind : Kind} (hkind : kind ≠ .shape) {id : Ref kind}
    (h : g.Names top id.thing) (color : Color) :
    g.Crosses top (attempt g parent id.thing color : ChronM ω Bool) :=
  .of_respects (sidesteps_attempt hkind id color) fun c _ =>
    (yields_attempt_of_named h color c).mono (fun _ _ _ => trivial) fun _ _ hfault => hfault

/-- An object is marked and pushed, or it is delayed. -/
theorem crosses_pushObject {id : ObjectId} (h : g.Names top id.thing) :
    g.Crosses top (pushObject g parent id : ChronM ω Unit) := by
  refine .of_respects (sidesteps_pushObject id) fun c _ => ?_
  rw [pushObject, yields_bind, yields_quietly, MarkM.color, yields_bind, yields_get, yields_pure,
    yields_bind]
  refine (yields_attempt_of_named h _ c).mono (fun claimed d hend => ?_)
    fun _ _ hfault => hfault
  obtain ⟨hstack, hmarked⟩ := hend
  refine yields_ite (fun hclaimed => ?_) fun _ => trivial
  refine yields_pushEntry_of (fun watcher => ?_) (fun _ _ => trivial) fun fault _ hfault => ?_
  · exact yields_refuse_of (hmarked hclaimed) fun _ _ => trivial
  · rw [hstack] at hfault
    exact .inr (SegmentedStack.eq_of_admits_eq_error hfault)

/-- Whether a move fails does not depend on what has been written down before. -/
theorem Erases.yields_fault {m : ChronM ω α} {n : MarkM ω α} (h : Erases m n)
    {c d : Chronicle ω} {faults : Fault → Prop}
    (hm : Yields m d (fun _ _ => True) fun fault _ => faults fault)
    (hsame : d.toMarking = c.toMarking) :
    Yields m c (fun _ _ => True) fun fault _ => faults fault := by
  have heq : forget (m c) = forget (m d) := (h c).trans (hsame ▸ (h d).symm)
  unfold Yields at hm ⊢
  cases hc : m c with
  | ok a c' => trivial
  | error fault c' =>
    cases hd : m d with
    | ok a d' => simp [hc, hd, forget] at heq
    | error other d' =>
      rw [hd] at hm
      rw [hc, hd] at heq
      simp only [forget, EStateM.Result.error.injEq] at heq
      exact heq.1 ▸ hm

/-- The marker without a chronicle goes where the one with a chronicle goes. -/
theorem Erases.yields {m : ChronM ω α} {n : MarkM ω α} (h : Erases m n)
    (c : Chronicle ω) {post : α → Marking ω → Prop} {faults : Fault → Marking ω → Prop}
    (hm : Yields m c (fun a d => post a d.toMarking) fun fault d => faults fault d.toMarking) :
    Yields n c.toMarking post faults := by
  have heq := h c
  unfold Yields at hm ⊢
  cases hc : m c with
  | ok a d =>
    rw [hc] at hm heq
    rw [← heq]
    exact hm
  | error fault d =>
    rw [hc] at hm heq
    rw [← heq]
    exact hm

theorem crosses_pushString (hreadable : g.Readable) {id : StringId} (h : g.Names top id.thing) :
    g.Crosses top (pushString g parent id : ChronM ω Unit) := by
  refine .of_respects (sidesteps_pushString id) fun c horderly => ?_
  by_cases hid : g.contains id.thing = true
  · obtain ⟨g', hsound, hstrings⟩ := hreadable.exists_sound
    have hid' : g'.contains id.thing = true := by
      have hlt : id.index < g.strings.size := of_decide_eq_true hid
      rw [← hstrings] at hlt
      exact decide_eq_true hlt
    have hmarks := hsound.yields_pushString (s := c.toMarking) hid' horderly.stack
      horderly.delayed parent
    rw [pushString_eq hstrings] at hmarks
    exact (erases_pushString g parent id).yields_fault
      (hmarks.mono (fun _ _ _ => trivial) fun _ _ hfault => .inr hfault.1) rfl
  · have hmissing := Bool.eq_false_of_not_eq_true hid
    rw [pushString, attemptString, yields_bind]
    refine (yields_attempt_of_missing hmissing _ c).mono (fun _ _ => False.elim) ?_
    rintro fault _ ⟨hfault, -⟩
    exact .inl ⟨hfault, id.thing, h, hmissing⟩

theorem crosses_pushProperty (hreadable : g.Readable) {property : PropertyId}
    (h : ∀ thing, property.thing? = some thing → g.Names top thing) :
    g.Crosses top (pushProperty g parent property : ChronM ω Unit) := by
  cases property with
  | string id => exact crosses_pushString hreadable (h _ rfl)
  | object id => exact crosses_pushObject (h _ rfl)
  | _ => exact .pure _

/-! Base shapes. -/

theorem crosses_shadeTwin (htwinned : g.Twinned) {id twinId : BaseShapeId}
    {base : BaseShapeCell} (hid : g.baseShape? id = some base) (hbase : base.twin = some twinId) :
    g.Crosses top (shadeTwin g id base twinId : ChronM ω Unit) := by
  obtain ⟨twin, htwin, hagrees⟩ := htwinned id base hid twinId hbase
  refine .of_safe (.bind (sidesteps_tell rfl) fun _ =>
    sidesteps_quietly (MarkM.sidesteps_shadeTwin g id base twinId)) fun c => ?_
  rw [shadeTwin, yields_bind, yields_tell, yields_quietly, MarkM.shadeTwin, yields_bind, htwin,
    yields_need_some, if_pos ⟨hagrees.compartment, hagrees.getter, hagrees.setter, hagrees.parent⟩]
  trivial

theorem crosses_pushOptional {kind : Kind} {push : Ref kind → ChronM ω Unit}
    {ref : Option (Ref kind)} (h : ∀ id, ref = some id → g.Crosses top (push id)) :
    g.Crosses top (pushOptional push ref) := by
  cases ref with
  | none => exact .pure _
  | some id => exact h id rfl

theorem crosses_scanBaseShape (htwinned : g.Twinned) {id : BaseShapeId}
    (h : g.Names top id.thing) : g.Crosses top (scanBaseShape g id : ChronM ω Unit) := by
  refine .bind (crosses_noteScan nofun) fun _ =>
    .need h contains_eq_false_of_baseShape fun base hbase => ?_
  have hfield : ∀ ref : Option ObjectId,
      (∀ object, ref = some object → object.thing ∈ base.references) →
      g.Crosses top (pushOptional (pushObject g (some id.thing)) ref : ChronM ω Unit) :=
    fun ref href => crosses_pushOptional fun object hobject =>
      crosses_pushObject (.baseShape h hbase (href object hobject))
  refine .bind (hfield base.getter fun object hobject => ?_) fun _ =>
    .bind (hfield base.setter fun object hobject => ?_) fun _ =>
      .bind (hfield base.parent fun object hobject => ?_) fun _ =>
        crosses_pushOptional fun twinId htwin => crosses_shadeTwin htwinned hbase htwin
  all_goals simp [BaseShapeCell.references, hobject]

theorem crosses_pushBaseShape (htwinned : g.Twinned) {id : BaseShapeId}
    (h : g.Names top id.thing) : g.Crosses top (pushBaseShape g parent id : ChronM ω Unit) :=
  .bind crosses_color fun _ => .bind (crosses_attempt (by decide) h _) fun _ =>
    .ite (crosses_scanBaseShape htwinned h) (.pure _)

end ChronM

end MarkPhase
