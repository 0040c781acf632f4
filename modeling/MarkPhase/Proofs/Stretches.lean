import MarkPhase.Proofs.Sidesteps
import MarkPhase.Proofs.Trails

/-!
How far a marker goes down a lineage. It takes one shape after the other, in the order of the
lineage, up to the first that it may not mark or that is marked already, be it from before or
because the lineage has come back to it. What the marker does for each shape before it goes on
leaves the other shapes alone, so how far it goes is settled by the marks that it has begun
with.
-/

namespace MarkPhase

variable {ω : Type}

/-- The shape has no mark, and the marker may give it one. -/
def Marking.MayTake (g : Graph) (s : Marking ω) (id : ShapeId) : Prop :=
  g.Allowed s.context.compartment id.thing ∧ s.marks.isMarked id.thing = false

/-- Once shapes have been taken, they may not be taken again. -/
theorem Marking.Takes.mayTake_iff {g : Graph} {s t : Marking ω} {line : List ShapeId}
    (h : s.Takes line t) (id : ShapeId) : t.MayTake g id ↔ s.MayTake g id ∧ id ∉ line := by
  unfold Marking.MayTake
  rw [h.filter, ThingTable.isMarked, h.shades, and_assoc]
  by_cases hmem : id ∈ line
  · simp [hmem, Shade.isMarked]
  · rw [if_neg hmem, and_iff_left hmem]
    rfl

namespace Graph

variable {g : Graph} {s t : Marking ω} {next stop halt : Option ShapeId}
variable {line other rest : List ShapeId} {id previous : ShapeId} {cell : ShapeCell}

/-- From a shape on, or from its end, the lineage passes these shapes and gets to `stop`. -/
inductive Along (g : Graph) : Option ShapeId → List ShapeId → Option ShapeId → Prop
  | here (next : Option ShapeId) : Along g next [] next
  | step {id : ShapeId} {cell : ShapeCell} {rest : List ShapeId} {stop : Option ShapeId} :
      g.shape? id = some cell → Along g cell.previous rest stop →
      Along g (some id) (id :: rest) stop

namespace Along

/-- Of two ways along a lineage one is the beginning of the other. -/
theorem comparable (h : g.Along next line stop) (h' : g.Along next other halt) :
    other <+: line ∨ ∃ id rest, other = line ++ id :: rest ∧ stop = some id := by
  induction h generalizing other with
  | here next =>
    cases h' with
    | here => exact Or.inl (List.prefix_refl _)
    | step => exact Or.inr ⟨_, _, rfl, rfl⟩
  | step hcell _ ih =>
    cases h' with
    | here => exact Or.inl (List.nil_prefix ..)
    | step hother hrest =>
      obtain rfl := Option.some.inj (hcell.symm.trans hother)
      refine (ih hrest).imp (List.prefix_cons_inj _).mpr fun hlonger => ?_
      obtain ⟨id, rest, rfl, hstop⟩ := hlonger
      exact ⟨id, rest, rfl, hstop⟩

theorem starts (h : g.Along (some id) line stop) : id ∈ line ∨ stop = some id := by
  cases h with
  | here => exact Or.inr rfl
  | step => exact Or.inl (List.mem_cons_self ..)

/-- The predecessor of a shape on the way comes next on the way, or the way ends before it. -/
theorem follows (h : g.Along next line stop) (hid : id ∈ line) (hfollows : g.Follows id previous) :
    previous ∈ line ∨ stop = some previous := by
  induction h with
  | here => exact absurd hid List.not_mem_nil
  | step hcell hrest ih =>
    rcases List.mem_cons.mp hid with rfl | hlater
    · obtain ⟨other, hother, hprevious⟩ := hfollows
      obtain rfl := Option.some.inj (hcell.symm.trans hother)
      rw [hprevious] at hrest
      exact hrest.starts.imp_left (List.mem_cons_of_mem _)
    · exact (ih hlater).imp_left (List.mem_cons_of_mem _)

theorem reaches {top : ShapeId} (h : g.Along (some top) line stop) (hid : id ∈ line) :
    Relation.ReflTransGen g.Follows top id := by
  generalize hnext : some top = next at h
  induction h generalizing top with
  | here => exact absurd hid List.not_mem_nil
  | step hcell hrest ih =>
    obtain rfl := Option.some.inj hnext
    rcases List.mem_cons.mp hid with rfl | hlater
    · exact .refl
    · cases hprevious : ShapeCell.previous _ with
      | none => rw [hprevious] at hrest; cases hrest; exact absurd hlater List.not_mem_nil
      | some previous => exact (ih hlater hprevious.symm).head ⟨_, hcell, hprevious⟩

end Along

/-- The shapes that a lineage begins with, each of them different and such that the marker may
take it. The shape behind them is the stop. -/
structure Stretch (g : Graph) (s : Marking ω) (next : Option ShapeId) (line : List ShapeId)
    (stop : Option ShapeId) : Prop where
  along : g.Along next line stop
  free : ∀ id ∈ line, s.MayTake g id
  nodup : line.Nodup

/-- Every other such stretch is a beginning of this one. -/
def LongestStretch (g : Graph) (s : Marking ω) (next : Option ShapeId) (line : List ShapeId)
    (stop : Option ShapeId) : Prop :=
  g.Stretch s next line stop ∧ ∀ other halt, g.Stretch s next other halt → other <+: line

/-- The marker may not take what stands behind the stretch, or has taken it on the way. -/
structure FullStretch (g : Graph) (s : Marking ω) (next : Option ShapeId) (line : List ShapeId)
    (stop : Option ShapeId) : Prop extends Stretch g s next line stop where
  ends : ∀ id, stop = some id → s.MayTake g id → id ∈ line

theorem FullStretch.longest (h : g.FullStretch s next line stop) :
    g.LongestStretch s next line stop := by
  refine ⟨h.toStretch, fun other halt hother => ?_⟩
  refine (h.along.comparable hother.along).resolve_right fun hlonger => ?_
  obtain ⟨id, rest, rfl, hstop⟩ := hlonger
  have hmem : id ∈ line := h.ends id hstop (hother.free id (by simp))
  exact (List.nodup_append.mp hother.nodup).2.2 id hmem id (List.mem_cons_self ..) rfl

/-- The stretch that no shape has been taken on. -/
theorem Stretch.here (next : Option ShapeId) : g.Stretch s next [] next where
  along := .here next
  free _ hmem := absurd hmem List.not_mem_nil
  nodup := List.nodup_nil

/-- A shape that is not taken. -/
theorem FullStretch.left (h : ¬ s.MayTake g id) : g.FullStretch s (some id) [] (some id) where
  toStretch := .here _
  ends other hother hmay := by
    obtain rfl := Option.some.inj hother
    exact absurd hmay h

/-- Nothing comes after the end of a lineage. -/
theorem FullStretch.ended : g.FullStretch s none [] none where
  toStretch := .here _
  ends := nofun

/-- A shape is taken, and then those behind it. -/
theorem Stretch.cons (h : g.Stretch t cell.previous line stop) (hid : g.shape? id = some cell)
    (hmay : s.MayTake g id) (htakes : s.Takes [id] t) :
    g.Stretch s (some id) (id :: line) stop where
  along := .step hid h.along
  free other hother := by
    rcases List.mem_cons.mp hother with rfl | hlater
    · exact hmay
    · exact ((htakes.mayTake_iff other).mp (h.free other hlater)).1
  nodup := by
    refine List.nodup_cons.mpr ⟨fun hagain => ?_, h.nodup⟩
    exact ((htakes.mayTake_iff id).mp (h.free id hagain)).2 (List.mem_singleton_self id)

theorem FullStretch.cons (h : g.FullStretch t cell.previous line stop)
    (hid : g.shape? id = some cell) (hmay : s.MayTake g id) (htakes : s.Takes [id] t) :
    g.FullStretch s (some id) (id :: line) stop where
  toStretch := h.toStretch.cons hid hmay htakes
  ends other hother hfree := by
    by_cases heq : other = id
    · exact heq ▸ List.mem_cons_self ..
    · have hlater : t.MayTake g other := (htakes.mayTake_iff other).mpr
        ⟨hfree, fun hmem => heq (List.mem_singleton.mp hmem)⟩
      exact List.mem_cons_of_mem _ (h.ends other hother hlater)

/-- How far a stretch goes depends on the marks of shapes alone. -/
theorem Stretch.of_sidesteps (h : g.Stretch t next line stop) (hbefore : s.Takes [] t) :
    g.Stretch s next line stop where
  along := h.along
  free other hother := ((hbefore.mayTake_iff other).mp (h.free other hother)).1
  nodup := h.nodup

theorem FullStretch.of_sidesteps (h : g.FullStretch t next line stop) (hbefore : s.Takes [] t) :
    g.FullStretch s next line stop where
  toStretch := h.toStretch.of_sidesteps hbefore
  ends other hother hmay :=
    h.ends other hother ((hbefore.mayTake_iff other).mpr ⟨hmay, List.not_mem_nil⟩)

end Graph

/-! The walk of the marker. -/

/-- What happens to the shapes of a stretch when they are taken: each is tried because of the
one before it, and scanned. If there is a stop, it is tried and left. -/
def stretchSteps (parent : Option Thing) : List ShapeId → Option ShapeId → List Event
  | [], none => []
  | [], some stop => [.tried parent stop.thing]
  | id :: rest, stop =>
    .tried parent id.thing :: .scanned id.thing :: stretchSteps (some id.thing) rest stop

namespace Chronicle

variable {g : Graph} {c : Chronicle ω} {id : ShapeId}

/-- A shape has just been marked because of `parent`. -/
def claimed (c : Chronicle ω) (parent : Option Thing) (id : ShapeId) : Chronicle ω :=
  { c with
    events := .tried parent id.thing :: c.events
    marks := c.marks.set id.thing (.marked c.color) }

theorem unmarkedOf_claimed (parent : Option Thing) (hid : g.contains id.thing = true)
    (hmay : c.MayTake g id) :
    (c.claimed parent id).unmarkedOf g .shape < c.unmarkedOf g .shape := by
  have hgrows : c.Grows (c.claimed parent id) :=
    fun _ hmarked => (ThingTable.isMarked_set ..).mpr (Or.inr hmarked)
  have hfewer := hgrows.unmarkedOf_lt hid hmay.2 ((ThingTable.isMarked_set ..).mpr (Or.inl rfl))
  exact hfewer

end Chronicle

namespace ChronM

open Chronicle Marking MarkPhase.Graph

/-- Marks and scans a shape and its predecessors, as long as they have not been marked. -/
def enterShape (g : Graph) (parent : Option Thing) (steps : Nat) (id : ShapeId) :
    ChronM ω Unit := do
  if ← attempt g parent id.thing (← quietly MarkM.color) then
    scanShape g steps id

/-- Goes on from a shape that has been scanned. -/
def leaveShape (g : Graph) (steps : Nat) (id : ShapeId) (cell : ShapeCell) : ChronM ω Unit := do
  pushBaseShape g (some id.thing) cell.base
  pushProperty g (some id.thing) cell.property
  if let some previous := cell.previous then
    enterShape g (some id.thing) steps previous

variable {g : Graph} {top id : ShapeId} {parent : Option Thing} {cell : ShapeCell}

theorem scanShape_succ (steps : Nat) (hid : g.shape? id = some cell) :
    scanShape g (steps + 1) id =
      (noteScan id.thing >>= fun _ => leaveShape g steps id cell : ChronM ω Unit) := by
  rw [scanShape, hid]
  rfl

/-- A shape that is there is claimed if the marker may take it, and otherwise left. -/
theorem yields_attempt_shape (hid : g.contains id.thing = true) (c : Chronicle ω)
    {scan : ChronM ω Unit} {post : Unit → Chronicle ω → Prop}
    {faults : Fault → Chronicle ω → Prop}
    (hleft : ∀ d, ¬ c.MayTake g id → c.Takes [.tried parent id.thing] [] d → post () d)
    (hclaimed : c.MayTake g id → Yields scan (c.claimed parent id) post faults) :
    Yields (do if ← attempt g parent id.thing (← quietly MarkM.color) then scan) c
      post faults := by
  rw [yields_bind, yields_quietly, MarkM.color, yields_bind, yields_get, yields_pure, yields_bind,
    attempt, yields_bind, yields_tell, yields_quietly]
  refine MarkM.yields_claim_of_contains hid (fun hallowed hnew => ?_) fun hmarked => ?_
  · rw [if_pos rfl]
    exact hclaimed ⟨hallowed, hnew⟩
  · rw [if_neg Bool.false_ne_true]
    refine hleft _ (fun hmay => ?_) ⟨refl_of (Marking.Takes []) c.toMarking, course_cons c _⟩
    exact Bool.eq_false_iff.mp hmay.2 (hmarked hmay.1)

/-- With the scan the shape has been taken. -/
theorem yields_noteScan_claimed (c : Chronicle ω) (parent : Option Thing) (id : ShapeId) :
    Yields (noteScan id.thing) (c.claimed parent id)
      (fun _ d => c.Takes [.tried parent id.thing, .scanned id.thing] [id] d ∧
        d.marks = (c.claimed parent id).marks) fun _ _ => False := by
  rw [noteScan, yields_bind, yields_sight, yields_bind, yields_tell, yields_quietly,
    MarkM.noteScan, yields_modify]
  refine ⟨⟨⟨?_, rfl, rfl, fun other => ?_, KindCounts.count_bump c.scanned .shape .shape⟩, ?_⟩,
    rfl⟩
  · refine trans_of Proceeds (Proceeds.set c.toMarking id.thing c.color) ?_
    exact .of_eq rfl rfl rfl
  · change (c.marks.set id.thing (.marked c.color)).get other.thing = _
    rw [ThingTable.get_set]
    by_cases heq : other = id
    · rw [heq, if_pos rfl, if_pos (List.mem_singleton_self id)]
    · rw [if_neg fun hsame => heq (Ref.thing_injective hsame).symm,
        if_neg fun hmem => heq (List.mem_singleton.mp hmem)]
  · have hcourse : Chronicle.course { c with
        events := .scanned id.thing :: .tried parent id.thing :: c.events } =
          c.course ++ [.tried parent id.thing, .scanned id.thing] := by
      rw [course_cons { c with events := .tried parent id.thing :: c.events }, course_cons c,
        List.append_assoc]
      rfl
    exact hcourse

end ChronM

/-! The two ways in which the walk may stop. -/

namespace Chronicle

/-- The marker has taken the shapes of a full stretch, and nothing has happened to others. -/
def Covers (g : Graph) (parent : Option Thing) (next : Option ShapeId) (c d : Chronicle ω) :
    Prop :=
  ∃ line stop, g.FullStretch c.toMarking next line stop ∧
    c.Takes (stretchSteps parent line stop) line d

/-- The marker has taken the shapes of a stretch, and then it has stopped at a fault. It has not
tried the shape behind the stretch unless this is not there. -/
def Breaks (g : Graph) (parent : Option Thing) (next : Option ShapeId) (c d : Chronicle ω) :
    Prop :=
  ∃ line stop lost, g.Stretch c.toMarking next line stop ∧
    (∀ id, lost = some id → stop = some id ∧ g.contains id.thing = false) ∧
    c.Takes (stretchSteps parent line lost) line d

variable {g : Graph} {c d e : Chronicle ω} {parent : Option Thing} {next : Option ShapeId}
variable {id : ShapeId} {cell : ShapeCell}

theorem Covers.after (h : Covers g parent next d e) (hbefore : c.Sidesteps d) :
    Covers g parent next c e := by
  obtain ⟨line, stop, hstretch, htakes⟩ := h
  exact ⟨line, stop, hstretch.of_sidesteps hbefore.marking, hbefore.append htakes⟩

theorem Breaks.after (h : Breaks g parent next d e) (hbefore : c.Sidesteps d) :
    Breaks g parent next c e := by
  obtain ⟨line, stop, lost, hstretch, hlost, htakes⟩ := h
  exact ⟨line, stop, lost, hstretch.of_sidesteps hbefore.marking, hlost, hbefore.append htakes⟩

/-- A fault that the marker has stopped at before it has tried a shape. -/
theorem Breaks.here (h : c.Sidesteps d) : Breaks g parent next c d :=
  ⟨[], next, none, .here next, nofun, h⟩

section Cons

variable (hid : g.shape? id = some cell) (hmay : c.MayTake g id)
variable (htakes : c.Takes [.tried parent id.thing, .scanned id.thing] [id] d)

include hid hmay htakes

/-- Once a shape has been taken, the walk goes on behind it. -/
theorem Covers.cons (h : Covers g (some id.thing) cell.previous d e) :
    Covers g parent (some id) c e := by
  obtain ⟨line, stop, hstretch, hrest⟩ := h
  exact ⟨id :: line, stop, hstretch.cons hid hmay htakes.marking, htakes.append hrest⟩

theorem Breaks.cons (h : Breaks g (some id.thing) cell.previous d e) :
    Breaks g parent (some id) c e := by
  obtain ⟨line, stop, lost, hstretch, hlost, hrest⟩ := h
  exact ⟨id :: line, stop, lost, hstretch.cons hid hmay htakes.marking, hlost,
    htakes.append hrest⟩

end Cons

end Chronicle

namespace ChronM

open Chronicle Marking MarkPhase.Graph

variable {g : Graph} {top id : ShapeId} {parent : Option Thing} {cell : ShapeCell}

/-- From `c`, the move goes along the lineage, and it fails only for one of the reasons that it
may have. -/
def GoesAlong (g : Graph) (top : ShapeId) (parent : Option Thing) (next : Option ShapeId)
    (c : Chronicle ω) (m : ChronM ω Unit) : Prop :=
  Yields m c (fun _ => Covers g parent next c)
    fun fault d => Breaks g parent next c d ∧ (c.Orderly → g.Halts top c.toMarking fault)

/-- A shape is claimed and scanned, unless it is left. -/
theorem goesAlong_attempt (h : g.Names top id.thing) (c : Chronicle ω) {scan : ChronM ω Unit}
    (hscan : g.contains id.thing = true → c.MayTake g id →
      Yields scan (c.claimed parent id) (fun _ => Covers g parent (some id) c) fun fault d =>
        Breaks g parent (some id) c d ∧ (c.Orderly → g.Halts top c.toMarking fault)) :
    GoesAlong g top parent (some id) c
      (do if ← attempt g parent id.thing (← quietly MarkM.color) then scan) := by
  by_cases hid : g.contains id.thing = true
  · exact yields_attempt_shape hid c (fun d hnot htried => ⟨[], some id, .left hnot, htried⟩)
      (hscan hid)
  · have hmissing := Bool.eq_false_of_not_eq_true hid
    rw [GoesAlong, yields_bind, yields_quietly, MarkM.color, yields_bind, yields_get, yields_pure,
      yields_bind]
    refine (yields_attempt_of_missing hmissing _ c).mono (fun _ _ => False.elim) ?_
    rintro fault d ⟨hfault, rfl⟩
    refine ⟨⟨[], some id, some id, .here _, ?_, ?_⟩,
      fun _ => .inl ⟨hfault, id.thing, h, hmissing⟩⟩
    · intro other hother
      exact ⟨hother, Option.some.inj hother ▸ hmissing⟩
    · exact ⟨refl_of (Marking.Takes []) c.toMarking, course_cons c _⟩

variable (hreadable : g.Readable) (htwinned : g.Twinned)

include hreadable htwinned

/-- Before the marker goes on from a shape it leaves shapes alone. -/
theorem goesAlong_leaveShape (steps : Nat) (h : g.Names top id.thing)
    (hid : g.shape? id = some cell) (c : Chronicle ω)
    (henter : ∀ previous d, cell.previous = some previous → c.Sidesteps d →
      GoesAlong g top (some id.thing) (some previous) d
        (enterShape g (some id.thing) steps previous)) :
    GoesAlong g top (some id.thing) cell.previous c (leaveShape g steps id cell) := by
  rw [GoesAlong, leaveShape, yields_bind]
  refine (crosses_pushBaseShape htwinned (h.base hid) c).mono (fun _ c₁ h₁ => ?_)
    fun _ _ hend => ⟨.here hend.1, hend.2⟩
  rw [yields_bind]
  refine (crosses_pushProperty hreadable (fun _ => h.property hid) c₁).mono (fun _ c₂ h₂ => ?_)
    fun _ _ hend => ⟨.here (trans_of _ h₁ hend.1),
      Goes.of_later heeds_halts h₁.marking.proceeds hend.2⟩
  have hbeside : c.Sidesteps c₂ := trans_of _ h₁ h₂
  cases hprevious : cell.previous with
  | none => exact ⟨[], none, .ended, hbeside⟩
  | some previous =>
    exact (henter previous c₂ hprevious hbeside).mono (fun _ _ hend => hend.after hbeside)
      fun _ _ hend => ⟨hend.1.after hbeside,
        Goes.of_later heeds_halts hbeside.marking.proceeds hend.2⟩

/-- A shape is taken, and then its predecessors. There are fewer and fewer unmarked shapes, so
the steps suffice. -/
theorem goesAlong_enterShape (steps : Nat) (h : g.Names top id.thing) (parent : Option Thing)
    (c : Chronicle ω) (hsteps : c.unmarkedOf g .shape ≤ steps) :
    GoesAlong g top parent (some id) c (enterShape g parent steps id) := by
  induction steps generalizing id parent c with
  | zero =>
    refine goesAlong_attempt h c fun hid hmay => ?_
    exact absurd (Nat.lt_of_lt_of_le (unmarkedOf_claimed parent hid hmay) hsteps)
      (Nat.not_lt_zero _)
  | succ steps ih =>
    refine goesAlong_attempt h c fun hid hmay => ?_
    obtain ⟨cell, hcell⟩ := exists_shape hid
    have hfewer := unmarkedOf_claimed parent hid hmay
    rw [scanShape_succ steps hcell, yields_bind]
    refine (yields_noteScan_claimed c parent id).mono (fun _ d hend => ?_) fun _ _ => False.elim
    obtain ⟨htaken, hmarks⟩ := hend
    have hleave : GoesAlong g top (some id.thing) cell.previous d
        (leaveShape g steps id cell) := by
      refine goesAlong_leaveShape hreadable htwinned steps h hcell d
        fun previous e hprevious hbeside => ih (h.previous hcell hprevious) _ e ?_
      have hgrows : d.Grows e := hbeside.marking.proceeds.grows
      have hle := hgrows.unmarkedOf_le g .shape
      have heq : d.unmarkedOf g .shape = (c.claimed parent id).unmarkedOf g .shape := by
        rw [unmarkedOf, unmarkedOf, hmarks]
      omega
    exact hleave.mono (fun _ _ hend => hend.cons hcell hmay htaken) fun _ _ hend =>
      ⟨hend.1.cons hcell hmay htaken,
        Goes.of_later heeds_halts htaken.marking.proceeds hend.2⟩

theorem goesAlong_pushShape (h : g.Names top id.thing) (parent : Option Thing)
    (c : Chronicle ω) : GoesAlong g top parent (some id) c (pushShape g parent id) :=
  goesAlong_enterShape hreadable htwinned (g.shapes.size + 1) h parent c
    (Nat.le_succ_of_le ((Outline.start c.marks).unmarkedOf_le g .shape))

end ChronM

end MarkPhase
