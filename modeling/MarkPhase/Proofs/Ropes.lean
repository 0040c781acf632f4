import MarkPhase.Proofs.Erasures
import MarkPhase.Proofs.Walks

/-!
How strings are marked. The right parts that a rope walk sets aside lie on top of whatever
was on the stack, and the walk goes no deeper than where it began. Where a part is
refused its place, it waits among the delayed things, and what is missing at the end lies
below such parts.
-/

namespace MarkPhase

variable {ω : Type}

/-! The stack in the middle of a walk. -/

/-- What is known of the stack and of the delayed things in the middle of a walk from `root`
that began in `s`: the parts `waiting` lie on top of what was there, and the parts `refused`
are delayed. -/
structure Pile (g : Graph) (s : Marking ω) (root : Thing) (waiting refused : List StringId)
    (c : Chronicle ω) : Prop where
  stack : c.stack.Tidy
  items : c.stack.items = waiting.map StackEntry.rope ++ s.stack.items
  segmentSize : c.stack.segmentSize = s.stack.segmentSize
  itemBytes : c.stack.itemBytes = s.stack.itemBytes
  delayedTidy : c.delayed.Tidy
  ropes : ∀ id ∈ waiting ++ refused, g.IsRope id
  delayed : ∀ id ∈ refused, id.thing ∈ c.delayed.things
  taken : ∀ depth, .taken depth ∈ c.events → s.stack.size < depth
  accepted : (∀ entry, .refused entry ∉ c.events) → refused = [] ∧ c.delayed = s.delayed
  unasked : (∀ entry, .offered entry ∉ c.events) →
    c.stack = s.stack ∧ c.delayed = s.delayed ∧ c.delays = s.delays ∧
      ∀ depth, .taken depth ∉ c.events
  forks : ∀ entry, .offered entry ∈ c.events → g.LeadsToFork root

namespace Pile

open ChronM

variable {g : Graph} {s : Marking ω} {root : Thing} {waiting refused : List StringId}
variable {next : StringId} {c d : Chronicle ω}

/-- The walk has found a rope that forks and wants more memory than there is. -/
def Overflows (g : Graph) (s : Marking ω) (root : Thing) (fault : Fault) : Prop :=
  allocationFault? s.stack.segmentSize s.stack.itemBytes = some fault ∧ g.LeadsToFork root

theorem of_rests (h : Pile g s root waiting refused c) (hrests : c.Rests d) :
    Pile g s root waiting refused d where
  stack := hrests.stack ▸ h.stack
  items := hrests.stack ▸ h.items
  segmentSize := hrests.stack ▸ h.segmentSize
  itemBytes := hrests.stack ▸ h.itemBytes
  delayedTidy := hrests.delayed ▸ h.delayedTidy
  ropes := h.ropes
  delayed := hrests.delayed ▸ h.delayed
  taken depth hmem := h.taken depth ((hrests.mem_iff id).mp hmem)
  accepted hnone := by
    rw [hrests.delayed]
    exact h.accepted fun entry hmem => hnone entry ((hrests.mem_iff id).mpr hmem)
  unasked hnone := by
    obtain ⟨hstack, hdelayed, hdelays, htaken⟩ :=
      h.unasked fun entry hmem => hnone entry ((hrests.mem_iff id).mpr hmem)
    exact ⟨hrests.stack.trans hstack, hrests.delayed.trans hdelayed, hrests.delays.trans hdelays,
      fun depth hmem => htaken depth ((hrests.mem_iff id).mp hmem)⟩
  forks entry hmem := h.forks entry ((hrests.mem_iff id).mp hmem)

theorem start (hstack : s.stack.Tidy) (hdelayed : s.delayed.Tidy) :
    Pile g s root [] [] { toMarking := s } where
  stack := hstack
  items := rfl
  segmentSize := rfl
  itemBytes := rfl
  delayedTidy := hdelayed
  ropes := nofun
  delayed := nofun
  taken := nofun
  accepted _ := ⟨rfl, rfl⟩
  unasked _ := ⟨rfl, rfl, rfl, nofun⟩
  forks := nofun

theorem size_eq (h : Pile g s root waiting refused c) (hbase : s.stack.Tidy) :
    c.stack.size = waiting.length + s.stack.size := by
  rw [h.stack.size_eq, hbase.size_eq, h.items, List.length_append, List.length_map]

/-- The offer of an entry is written down, whatever the observer remembers of it. -/
theorem offer (h : Pile g s root waiting refused c) (hfork : g.LeadsToFork root)
    (entry : StackEntry) (watcher : Option (Watcher ω)) :
    Pile g s root waiting refused { c with events := .offered entry :: c.events, watcher } :=
  { h with
    taken := fun depth hmem => h.taken depth (by simpa using hmem)
    accepted := fun hnone => h.accepted fun other hmem => hnone other (List.mem_cons_of_mem _ hmem)
    unasked := fun hnone => absurd (List.mem_cons_self ..) (hnone entry)
    forks := fun _ _ => hfork }

/-- A part that is refused is among the delayed things afterwards. -/
theorem refuse (h : Pile g s root waiting refused c) (hrope : g.IsRope next)
    {entry : StackEntry} (hoffered : .offered entry ∈ c.events) {delayed : DelayedList}
    (htidy : delayed.Tidy) (hnext : next.thing ∈ delayed.things)
    (hkept : ∀ thing ∈ c.delayed.things, thing ∈ delayed.things) (delays : Nat)
    (journal : Array Record) :
    Pile g s root waiting (next :: refused)
      { c with events := .refused (.rope next) :: c.events, delayed, delays, journal } :=
  { h with
    delayedTidy := htidy
    ropes := fun id hid => by
      rcases List.mem_append.mp hid with hid | hid
      · exact h.ropes id (List.mem_append_left _ hid)
      · rcases List.mem_cons.mp hid with rfl | hid
        · exact hrope
        · exact h.ropes id (List.mem_append_right _ hid)
    delayed := fun id hid => by
      rcases List.mem_cons.mp hid with rfl | hid
      · exact hnext
      · exact hkept _ (h.delayed id hid)
    taken := fun depth hmem => h.taken depth (by simpa using hmem)
    accepted := fun hnone => absurd (List.mem_cons_self ..) (hnone _)
    unasked := fun hnone => absurd (List.mem_cons_of_mem _ hoffered) (hnone entry)
    forks := fun other hmem => h.forks other (by simpa using hmem) }

/-- A part that is accepted lies on top of the others. -/
theorem extend (h : Pile g s root waiting refused c) (hrope : g.IsRope next)
    {entry : StackEntry} (hoffered : .offered entry ∈ c.events) :
    Pile g s root (next :: waiting) refused
      { c with stack := (c.stack.extend (.rope next)).notePeak } :=
  { h with
    stack := h.stack.extend _
    items := by
      rw [SegmentedStack.items_notePeak, h.stack.items_extend, h.items]
      rfl
    segmentSize := (SegmentedStack.segmentSize_extend _ _).trans h.segmentSize
    itemBytes := (SegmentedStack.itemBytes_extend _ _).trans h.itemBytes
    ropes := fun id hid => by
      rcases List.mem_cons.mp hid with rfl | hid
      · exact hrope
      · exact h.ropes id hid
    unasked := fun hnone => absurd hoffered (hnone entry) }

private theorem yields_refuse (h : Pile g s root waiting refused c) (hrope : g.IsRope next)
    (hmarked : c.marks.isMarked next.thing = true) {entry : StackEntry}
    (hoffered : .offered entry ∈ c.events) (faults : Fault → Chronicle ω → Prop) :
    Yields (ChronM.refuse (.rope next)) c (fun _ d => d.marks = c.marks ∧
      d.context.compartment = c.context.compartment ∧
      Pile g s root waiting (next :: refused) d) faults := by
  refine yields_refuse_of hmarked fun delays journal => ⟨rfl, rfl, ?_⟩
  change Pile g s root waiting (next :: refused) { c with
    events := .refused (.rope next) :: c.events, delayed := (c.delayed.add next.thing).2,
    delays, journal }
  have hmem : ∀ {thing}, thing = next.thing ∨ thing ∈ c.delayed.things →
      thing ∈ (c.delayed.add next.thing).2.things := h.delayedTidy.mem_add.mpr
  exact h.refuse hrope hoffered (h.delayedTidy.add next.thing).1 (hmem (Or.inl rfl))
    (fun _ hthing => hmem (Or.inr hthing)) delays journal

/-- A part is set aside on the stack, or it is delayed. -/
theorem yields_pushEntry (h : Pile g s root waiting refused c) (hrope : g.IsRope next)
    (hmarked : c.marks.isMarked next.thing = true) (hfork : g.LeadsToFork root) :
    Yields (pushEntry (.rope next)) c (fun _ d => d.marks = c.marks ∧
      d.context.compartment = c.context.compartment ∧
      (Pile g s root (next :: waiting) refused d ∨ Pile g s root waiting (next :: refused) d))
      fun fault _ => Overflows g s root fault := by
  refine yields_pushEntry_of (fun watcher => ?_) (fun watcher _ => ?_) fun fault _ hfault => ?_
  · refine ((h.offer hfork (.rope next) watcher).yields_refuse hrope hmarked
      (List.mem_cons_self ..) _).imp fun _ d hend => ?_
    exact ⟨hend.1, hend.2.1, Or.inr hend.2.2⟩
  · exact ⟨rfl, rfl, Or.inl ((h.offer hfork (.rope next) watcher).extend hrope
      (List.mem_cons_self ..))⟩
  · exact ⟨h.segmentSize ▸ h.itemBytes ▸ SegmentedStack.eq_of_admits_eq_error hfault, hfork⟩

/-- The part that was set aside last is taken from the stack again. -/
theorem yields_popEntry (h : Pile g s root (next :: waiting) refused c) (hbase : s.stack.Tidy) :
    Yields popEntry c (fun entry d => entry = some (.rope next) ∧ d.marks = c.marks ∧
      d.context.compartment = c.context.compartment ∧ Pile g s root waiting refused d)
      fun _ _ => False := by
  have hsize : s.stack.size < c.stack.size := by
    rw [h.size_eq hbase, List.length_cons]
    omega
  obtain ⟨hfirst, hrest⟩ := h.stack.items_pop
  obtain ⟨hsegment, hbytes, -, -⟩ := c.stack.settings_pop
  rw [popEntry, yields_bind, yields_quietly, yields_get, yields_bind, yields_tell, yields_quietly,
    MarkM.popEntry, yields_modifyGet]
  refine ⟨by rw [hfirst, h.items]; rfl, rfl, rfl, { h with
    stack := h.stack.pop
    items := by rw [hrest, h.items]; rfl
    segmentSize := hsegment.trans h.segmentSize
    itemBytes := hbytes.trans h.itemBytes
    ropes := fun id hid => h.ropes id (List.mem_cons_of_mem _ hid)
    taken := fun depth hmem => ?_
    accepted := fun hnone => h.accepted fun entry hmem => hnone entry (List.mem_cons_of_mem _ hmem)
    unasked := fun hnone => ?_
    forks := fun entry hmem => h.forks entry (by simpa using hmem) }⟩
  · rcases List.mem_cons.mp hmem with heq | hmem
    · exact Event.taken.inj heq ▸ hsize
    · exact h.taken depth hmem
  · -- Something lies on top of the stack, so it was offered.
    have hsame := (h.unasked fun entry hmem => hnone entry (List.mem_cons_of_mem _ hmem)).1
    rw [hsame] at hsize
    exact absurd hsize (Nat.lt_irrefl _)

end Pile

namespace Walk

open ChronM

variable {g : Graph} {s : Marking ω} {root : Thing} {waiting refused : List StringId}
variable {id : StringId} {c : Chronicle ω}

/-- The parts of a rope have been entered, and the rope itself is awaited no longer. -/
private structure Entered (g : Graph) (s : Marking ω) (root : Thing) (parts : List StringId)
    (id : StringId) (c : Chronicle ω) (last first : Option StringId) (d : Chronicle ω) : Prop where
  rests : c.Rests d
  walk : Walk g s root (refThings first ++ (refThings last ++ parts.map Ref.thing)) d
  first_rope : ∀ next, first = some next → g.IsRope next
  last_rope : ∀ next, last = some next → g.IsRope next ∧ d.marks.isMarked next.thing = true
  forks : first.isSome = true → last.isSome = true → g.Forks id
  fewer : d.unmarkedStrings g + (refThings first).length + (refThings last).length ≤
    c.unmarkedStrings g

variable (hsound : g.Sound)

include hsound

/-- The right part of a rope is entered first. -/
private theorem yields_enterParts {left right : StringId} {parts : List StringId}
    (h : Walk g s root (id.thing :: parts.map Ref.thing) c) {string : StringCell}
    (hid : g.string? id = some string) (hparts : string.parts? = some (left, right))
    (hreferences : string.references = [left.thing, right.thing]) :
    Yields (enterPart g (some id.thing) right) c (fun last d =>
      Yields (enterPart g (some id.thing) left) d (fun first e =>
        Entered g s root parts id c last first e) fun _ _ => False) fun _ _ => False := by
  have hchild : ∀ part ∈ string.references, g.Child id.thing part := fun part =>
    (hsound.child_string hid).mpr
  have hcontains : ∀ part ∈ string.references, g.contains part = true := (hsound.string hid).1.2
  rw [hreferences] at hchild hcontains
  have hright : right.thing ∈ [left.thing, right.thing] := by simp
  have hleft : left.thing ∈ [left.thing, right.thing] := by simp
  refine (h.yields_enterPart hsound (some id.thing) (List.mem_cons_self ..) (hchild _ hright)
    (hcontains _ hright)).imp fun last d hend => ?_
  obtain ⟨hrests₁, hgrows₁, hmarkedRight, hlast, h₁, hfewer₁⟩ := hend
  have hrope : id.thing ∈ refThings last ++ id.thing :: parts.map Ref.thing :=
    List.mem_append_right _ (List.mem_cons_self ..)
  refine (h₁.yields_enterPart hsound (some id.thing) hrope (hchild _ hleft)
    (hcontains _ hleft)).imp fun first e hend => ?_
  obtain ⟨hrests₂, hgrows₂, hmarkedLeft, hfirst, h₂, hfewer₂⟩ := hend
  have hperm : (refThings first ++ (refThings last ++ id.thing :: parts.map Ref.thing)).Perm
      (id.thing :: (refThings first ++ (refThings last ++ parts.map Ref.thing))) := by
    rw [← List.append_assoc, ← List.append_assoc]
    exact List.perm_middle
  have hchildren : ∀ child, g.Child id.thing child → g.Allowed s.context.compartment child →
      e.marks.isMarked child = true := by
    intro child hgiven hallowed
    rw [hsound.child_string hid, hreferences] at hgiven
    rcases List.mem_cons.mp hgiven with rfl | hgiven
    · exact hmarkedLeft hallowed
    · rw [List.mem_singleton] at hgiven
      subst hgiven
      exact hgrows₂ _ (hmarkedRight hallowed)
  refine ⟨hrests₁.trans hrests₂, (h₂.perm hperm).close hchildren, fun next heq => ?_,
    fun next heq => ?_, ?_, by omega⟩
  · obtain ⟨rfl, hnext⟩ := hfirst next heq
    exact hnext
  · obtain ⟨rfl, hnext⟩ := hlast next heq
    refine ⟨hnext, hgrows₂ _ (hmarkedRight ?_)⟩
    have hopens := h₁.opens next.thing (by simp [heq])
    exact hopens.allowed
  · intro hsomeFirst hsomeLast
    obtain ⟨first, rfl⟩ := Option.isSome_iff_exists.mp hsomeFirst
    obtain ⟨last, rfl⟩ := Option.isSome_iff_exists.mp hsomeLast
    exact ⟨string, left, right, hid, hparts, (hfirst first rfl).2, (hlast last rfl).2⟩

omit hsound in
/-- The second of two ropes is set aside, and the walk goes on with the first. -/
private theorem yields_setAside {first last : StringId} {awaited : List StringId}
    (h : Walk g s root (first.thing :: last.thing :: awaited.map Ref.thing) c)
    (hawaited : awaited = waiting ++ refused) (hpile : Pile g s root waiting refused c)
    (hlast : g.IsRope last) (hmarked : c.marks.isMarked last.thing = true)
    (hfork : g.LeadsToFork root) :
    Yields (pushEntry (.rope last)) c (fun _ d => ∃ waiting' refused',
      Walk g s root (first.thing :: (waiting' ++ refused').map Ref.thing) d ∧
      Pile g s root waiting' refused' d ∧ waiting'.length ≤ waiting.length + 1 ∧
      d.unmarkedStrings g ≤ c.unmarkedStrings g)
      fun fault _ => Pile.Overflows g s root fault := by
  subst hawaited
  refine (hpile.yields_pushEntry hlast hmarked hfork).imp fun _ d hend => ?_
  obtain ⟨hmarks, hfilter, hcases⟩ := hend
  have hgrows : c.Grows d := fun other hother => hmarks ▸ hother
  have hle := hgrows.unmarkedStrings_le g
  have hwalk : Walk g s root (first.thing :: (last :: waiting ++ refused).map Ref.thing) d :=
    h.of_marks hmarks hfilter
  rcases hcases with hwaits | hdelayed
  · exact ⟨last :: waiting, refused, hwalk, hwaits, Nat.le_refl _, hle⟩
  · have hperm : (last :: waiting ++ refused).Perm (waiting ++ last :: refused) :=
      List.perm_middle.symm
    exact ⟨waiting, last :: refused, hwalk.perm ((hperm.map Ref.thing).cons first.thing),
      hdelayed, Nat.le_succ _, hle⟩

/-- A rope walk ends where the stack is as deep as it was, and what it still awaits is
delayed. -/
theorem yields_scanRope (hbase : s.stack.Tidy) (steps : Nat)
    (h : Walk g s root (id.thing :: (waiting ++ refused).map Ref.thing) c)
    (hpile : Pile g s root waiting refused c) (hrope : g.IsRope id)
    (hsteps : c.unmarkedStrings g + waiting.length < steps) :
    Yields (scanRope g s.stack.size steps id) c (fun _ d => ∃ delayed : List StringId,
      Walk g s root (delayed.map Ref.thing) d ∧ Pile g s root [] delayed d)
      fun fault _ => Pile.Overflows g s root fault := by
  induction steps generalizing id waiting refused c with
  | zero => exact absurd hsteps (Nat.not_lt_zero _)
  | succ steps ih =>
    obtain ⟨string, hid, hstring⟩ := hrope
    obtain ⟨left, right, hparts, hreferences⟩ := StringCell.references_of_rope hstring
    have hreach := (h.opens id.thing (List.mem_cons_self ..)).reachable
    rw [scanRope, yields_bind]
    refine (yields_noteScan id.thing).mono (fun _ c₁ hend => ?_) fun _ _ => False.elim
    obtain ⟨hrests₁, hmarks₁⟩ := hend
    have hgrows₁ : c.Grows c₁ := fun other hother => hmarks₁ ▸ hother
    have hle₁ := hgrows₁.unmarkedStrings_le g
    rw [yields_bind, hid, yields_need_some, hparts]
    simp only [yields_bind]
    refine ((h.of_marks hmarks₁ hrests₁.filter).yields_enterParts hsound hid hparts
      hreferences).mono (fun last c₂ hend => ?_) fun _ _ => False.elim
    refine hend.mono (fun first d hentered => ?_) fun _ _ => False.elim
    have hpiled := hpile.of_rests (hrests₁.trans hentered.rests)
    have hwalk := hentered.walk
    have hfewer := hentered.fewer
    cases first with
    | none =>
      cases last with
      | none =>
        simp only [Option.or_none, yields_bind, yields_quietly, yields_get]
        -- The depth tells whether a part has been set aside.
        have hsize := hpiled.size_eq hbase
        cases waiting with
        | nil =>
          rw [if_neg (not_not.mpr (hsize.trans (Nat.zero_add _)))]
          exact ⟨refused, hwalk, hpiled⟩
        | cons next waiting =>
          rw [List.length_cons] at hsize hsteps
          rw [if_pos (by omega), yields_bind]
          refine (hpiled.yields_popEntry hbase).mono (fun entry e hend => ?_) fun _ _ => False.elim
          obtain ⟨rfl, hmarks, hfilter, hpopped⟩ := hend
          have hgrows : d.Grows e := fun other hother => hmarks ▸ hother
          have hle := hgrows.unmarkedStrings_le g
          exact ih (hwalk.of_marks hmarks hfilter) hpopped
            (hpiled.ropes next (List.mem_cons_self ..)) (by omega)
      | some next =>
        have hone : (refThings (some next)).length = 1 := rfl
        exact ih hwalk hpiled (hentered.last_rope next rfl).1 (by omega)
    | some first =>
      have hrope := hentered.first_rope first rfl
      have hone : (refThings (some first)).length = 1 := rfl
      cases last with
      | none => exact ih hwalk hpiled hrope (by omega)
      | some last =>
        obtain ⟨hlast, hmarked⟩ := hentered.last_rope last rfl
        have hfork : g.LeadsToFork root := ⟨id, hreach, hentered.forks rfl rfl⟩
        have hother : (refThings (some last)).length = 1 := rfl
        rw [yields_bind]
        refine (hwalk.yields_setAside rfl hpiled hlast hmarked hfork).imp fun _ e hend => ?_
        obtain ⟨waiting', refused', hwalk', hpile', hlength, hle⟩ := hend
        exact ih hwalk' hpile' hrope (by omega)

omit hsound in
/-- What has not been marked lies below what is still awaited. -/
theorem marked_or_below {awaited : List Thing} {thing : Thing} (h : Walk g s root awaited c)
    (hopens : g.Opens s.context.compartment s.marks root thing) :
    c.marks.isMarked thing = true ∨
      ∃ rest ∈ awaited, g.Opens s.context.compartment s.marks rest thing := by
  induction hopens with
  | root hallowed hnew => exact Or.inl (h.rooted (.root hallowed hnew))
  | @child parent child hparent hchild hallowed hnew ih =>
    rcases ih with hmarked | ⟨rest, hrest, hbelow⟩
    · by_cases hawaited : parent ∈ awaited
      · have hself := Graph.Opens.root hparent.allowed hparent.unmarked
        exact Or.inr ⟨parent, hawaited, hself.child hchild hallowed hnew⟩
      · exact Or.inl (h.closed parent child hparent hmarked hawaited hchild hallowed)
    · exact Or.inr ⟨rest, hrest, hbelow.child hchild hallowed hnew⟩

end Walk

/-- What marking a string from `root` on leaves behind: the entries that were on the stack, in
their order and never touched; black marks on strings found along unmarked ones, and on
nothing else; and no string found in this way is missed that does not lie below a delayed
rope. Where nothing was refused, nothing is missed and nothing is delayed. -/
structure Chronicle.Finishes (g : Graph) (s : Marking ω) (root : Thing) (c : Chronicle ω) :
    Prop where
  items : c.stack.items = s.stack.items
  taken : ∀ depth, .taken depth ∈ c.events → s.stack.size < depth
  marks : ∀ thing, c.marks.get thing ≠ s.marks.get thing →
    thing.kind = .string ∧ g.Opens s.context.compartment s.marks root thing ∧
      c.marks.get thing = .marked .black
  complete : ∀ thing, g.Opens s.context.compartment s.marks root thing →
    c.marks.isMarked thing = true ∨ ∃ rope : StringId, g.IsRope rope ∧
      rope.thing ∈ c.delayed.things ∧ g.Opens s.context.compartment s.marks rope.thing thing
  accepted : (∀ entry, .refused entry ∉ c.events) → c.delayed = s.delayed ∧
    ∀ thing, s.marks.isMarked thing = false ∧ c.marks.isMarked thing = true ↔
      g.Opens s.context.compartment s.marks root thing

/-- No entry has been offered to the stack or taken from it since the state `s`, and what was
on the stack and what was delayed has stayed as it was. -/
structure Chronicle.Aloof (c : Chronicle ω) (s : Marking ω) : Prop where
  offered : ∀ entry, .offered entry ∉ c.events
  taken : ∀ depth, .taken depth ∉ c.events
  stack : c.stack = s.stack
  delayed : c.delayed = s.delayed
  delays : c.delays = s.delays

theorem Walk.finishes {g : Graph} {s : Marking ω} {root : Thing} {delayed : List StringId}
    {c : Chronicle ω} (h : Walk g s root (delayed.map Ref.thing) c)
    (hpile : Pile g s root [] delayed c) : c.Finishes g s root where
  items := hpile.items
  taken := hpile.taken
  marks thing hne := by
    obtain ⟨hopens, hkind, hblack⟩ := (h.marks thing).resolve_left hne
    exact ⟨hkind, hopens, hblack⟩
  complete thing hopens := by
    refine (h.marked_or_below hopens).imp_right fun hbelow => ?_
    obtain ⟨rest, hrest, hbelow⟩ := hbelow
    obtain ⟨rope, hrope, rfl⟩ := List.mem_map.mp hrest
    exact ⟨rope, hpile.ropes rope hrope, hpile.delayed rope hrope, hbelow⟩
  accepted hnone := by
    obtain ⟨rfl, hsame⟩ := hpile.accepted hnone
    refine ⟨hsame, fun thing => ⟨fun hgiven => ?_, fun hopens => ⟨hopens.unmarked, ?_⟩⟩⟩
    · obtain ⟨hnew, hmarked⟩ := hgiven
      rcases h.marks thing with hsame | ⟨hopens, -, -⟩
      · rw [ThingTable.isMarked, hsame] at hmarked
        exact absurd hmarked (Bool.eq_false_iff.mp hnew)
      · exact hopens
    · refine (h.marked_or_below hopens).resolve_right fun hbelow => ?_
      obtain ⟨rest, hrest, -⟩ := hbelow
      exact absurd hrest List.not_mem_nil

namespace Graph.Sound

open ChronM

variable {g : Graph} {id : StringId} {s : Marking ω}

/-- A string is marked to the end, unless a rope forks and there is no memory for the stack. -/
theorem yields_pushString (h : g.Sound) (hid : g.contains id.thing = true)
    (hstack : s.stack.Tidy) (hdelayed : s.delayed.Tidy) (parent : Option Thing) :
    Yields (pushString g parent id) { toMarking := s } (fun _ c => c.Finishes g s id.thing ∧
        ∃ delayed, Pile g s id.thing [] delayed c)
      fun fault _ => Pile.Overflows g s id.thing fault := by
  obtain ⟨string, hstring⟩ := exists_string hid
  rw [pushString, yields_bind]
  refine (yields_attempt parent hid .black).mono (fun claimed c hend => ?_) fun _ _ => False.elim
  obtain ⟨hrests, hshading⟩ := hend
  have hpiled : Pile g s id.thing [] [] c := (Pile.start hstack hdelayed).of_rests hrests
  generalize hafter : c.marks = after at hshading
  cases hshading with
  | left hmarked =>
    have hnot : ∀ thing, ¬ g.Opens s.context.compartment s.marks id.thing thing :=
      fun thing hopens =>
        Bool.eq_false_iff.mp hopens.self.unmarked (hmarked hopens.self.allowed)
    have hwalk : Walk g s id.thing [] c := .nowhere hrests.filter hafter hnot
    exact ⟨hwalk.finishes hpiled, [], hpiled⟩
  | shaded hallowed hnew =>
    have hwalk : Walk g s id.thing [id.thing] c := .start hrests.filter hafter (.root hallowed hnew)
    have hsteps : c.unmarkedStrings g < g.strings.size + 1 :=
      Nat.lt_succ_of_le ((Outline.start c.marks).unmarkedOf_le g .string)
    rw [if_pos rfl, yields_bind, hstring, yields_need_some]
    refine yields_ite (fun hrope => ?_) fun hrope => ?_
    · rw [yields_bind, yields_quietly, yields_get, hrests.stack]
      refine (hwalk.yields_scanRope h hstack _ hpiled ⟨string, hstring, hrope⟩ hsteps).imp ?_
      intro _ d hend
      obtain ⟨delayed, hended, hpile⟩ := hend
      exact ⟨hended.finishes hpile, delayed, hpile⟩
    · have hlinear : string.isRope = false := Bool.eq_false_of_not_eq_true hrope
      refine (hwalk.yields_scanLinear h _ ⟨string, hstring, hlinear⟩ hsteps).mono
        (fun _ d hend => ?_) fun _ _ => False.elim
      obtain ⟨hrests₁, -, hended⟩ := hend
      have hpile := hpiled.of_rests hrests₁
      exact ⟨hended.finishes hpile, [], hpile⟩

/-- Whatever is marked, on the stack and delayed, and whatever the filter, the observer and the
bound are, marking a string finishes. The only way to fail is to want memory for a rope that
has to be set aside, where a segment cannot be allocated. -/
theorem pushString_finishes (h : g.Sound) (hid : g.contains id.thing = true)
    (hstack : s.stack.Tidy) (hdelayed : s.delayed.Tidy) :
    (∃ c, pushString g none id { toMarking := s } = .ok () c ∧
      MarkM.pushString g id s = .ok () c.toMarking ∧ c.Finishes g s id.thing) ∨
    (g.LeadsToFork id.thing ∧
      ∃ fault t, allocationFault? s.stack.segmentSize s.stack.itemBytes = some fault ∧
        MarkM.pushString g id s = .error fault t) := by
  have hyields := h.yields_pushString hid hstack hdelayed none
  have herases := erases_pushString g none id { toMarking := s }
  cases hrun : pushString g none id { toMarking := s } with
  | ok _ c =>
    rw [hrun] at herases
    exact Or.inl ⟨c, rfl, herases.symm, (hyields.of_ok hrun).1⟩
  | error fault c =>
    obtain ⟨hfault, hfork⟩ := hyields.of_error hrun
    rw [hrun] at herases
    exact Or.inr ⟨hfork, fault, c.toMarking, hfault, herases.symm⟩

end Graph.Sound

/-- A rope of two ropes. -/
def tangle : List Construction :=
  [.string .atoms "a", .string .atoms "b", .string .atoms "c", .string .atoms "d",
    .concat .atoms ⟨0⟩ ⟨1⟩, .concat .atoms ⟨2⟩ ⟨3⟩, .concat .atoms ⟨4⟩ ⟨5⟩]

theorem grounded_tangle : Grounded tangle := by
  decide +kernel

namespace Graph.Sound

open ChronM

theorem pushString_finishes_sample :
    let g := (Heap.built tangle).graph
    let L : Launch Unit := Launch.sample 1 (some ⟨.rangeless, ()⟩)
    let id : StringId := ⟨6⟩
    g.Sound ∧ g.contains id.thing = true ∧ L.start.stack.Tidy ∧ L.start.delayed.Tidy ∧
    ∃ c, pushString g none id { toMarking := L.start } = .ok () c ∧
      MarkM.pushString g id L.start = .ok () c.toMarking ∧ c.Finishes g L.start id.thing := by
  intro g L id
  have hsound : g.Sound := Heap.sound_built grounded_tangle
  have hid : g.contains id.thing = true := by decide +kernel
  have hdelayed : L.start.delayed.Tidy := DelayedList.tidy_empty
  have hroom : allocationFault? L.start.stack.segmentSize L.start.stack.itemBytes = none := by
    decide +kernel
  refine ⟨hsound, hid, L.start_idle.2.1, hdelayed, ?_⟩
  refine (hsound.pushString_finishes hid L.start_idle.2.1 hdelayed).resolve_right ?_
  rintro ⟨-, fault, t, hfault, -⟩
  rw [hroom] at hfault
  cases hfault

/-- Where no segment fits memory, a rope of two ropes is not marked to the end. -/
theorem pushString_fails_without_memory :
    let g := (Heap.built tangle).graph
    let L : Launch Unit := Launch.cramped none
    let id : StringId := ⟨6⟩
    Grounded tangle ∧ g.contains id.thing = true ∧ L.start.stack.Tidy ∧ L.start.delayed.Tidy ∧
      ∃ t, MarkM.pushString g id L.start = .error .capacityOverflow t := by
  intro g L id
  have hstop : ∃ t, MarkM.pushString g id L.start = .error .capacityOverflow t :=
    Yields.exists_stop (by decide +kernel)
  exact ⟨grounded_tangle, by decide +kernel, L.start_idle.2.1, DelayedList.tidy_empty, hstop⟩

variable {g : Graph} {id : StringId} {s : Marking ω}

/-- Where no rope has two ropes for its parts, nothing is offered to the stack. -/
theorem pushString_of_unforked (h : g.Sound) (hid : g.contains id.thing = true)
    (hstack : s.stack.Tidy) (hdelayed : s.delayed.Tidy) (hunforked : ¬ g.LeadsToFork id.thing) :
    ∃ c, pushString g none id { toMarking := s } = .ok () c ∧
      MarkM.pushString g id s = .ok () c.toMarking ∧ c.Aloof s := by
  obtain ⟨_, c, hrun, -, delayed, hpile⟩ := (h.yields_pushString hid hstack hdelayed none).exists_ok
    fun _ _ hfault => hunforked hfault.2
  have hnone : ∀ entry, .offered entry ∉ c.events := fun entry hmem =>
    hunforked (hpile.forks entry hmem)
  obtain ⟨hsame, hsameDelayed, hdelays, htaken⟩ := hpile.unasked hnone
  exact ⟨c, hrun, (erases_pushString g none id).of_ok hrun, hnone, htaken, hsame, hsameDelayed,
    hdelays⟩

end Graph.Sound

end MarkPhase
