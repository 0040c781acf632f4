import MarkPhase.Proofs.Stretches

/-!
Shapes given to a marker on a heap on which no shape refers to anything that is missing. The
marker takes the longest stretch of the lineage, and then it is done, unless it wants memory for
the stack and there is none. What it takes adds up when it is given one shape after the other:
where a stretch ends the lineage goes on along shapes that have been taken before, so in all
each shape is taken once.
-/

namespace MarkPhase

variable {ω : Type}

namespace Graph

variable {g : Graph} {top id : ShapeId} {s t : Marking ω}

/-- Whatever a shape or a base shape refers to is there. -/
structure Closed (g : Graph) : Prop where
  shapes : ∀ cell ∈ g.shapes, ∀ thing ∈ cell.references, g.contains thing = true
  baseShapes : ∀ cell ∈ g.baseShapes, ∀ thing ∈ cell.references, g.contains thing = true

namespace Closed

variable (h : g.Closed) (htop : g.contains top.thing = true)

include h

theorem previous {cell : ShapeCell} {previous : ShapeId} (hid : g.shape? id = some cell)
    (hprevious : cell.previous = some previous) : g.contains previous.thing = true :=
  h.shapes cell (Array.mem_of_getElem? hid) _ (by simp [ShapeCell.references, hprevious])

/-- Where the lineage of a shape gets to there is a shape. -/
theorem along {next stop : Option ShapeId} {line : List ShapeId} (halong : g.Along next line stop)
    (hnext : ∀ id, next = some id → g.contains id.thing = true) :
    ∀ id, stop = some id → g.contains id.thing = true := by
  induction halong with
  | here => exact hnext
  | step hcell _ ih => exact ih fun _ hprevious => h.previous hcell hprevious

include htop

theorem contains {thing : Thing} (hnamed : g.Names top thing) : g.contains thing = true := by
  cases hnamed with
  | top => exact htop
  | shape _ hcell hmem => exact h.shapes _ (Array.mem_of_getElem? hcell) _ hmem
  | baseShape _ hcell hmem => exact h.baseShapes _ (Array.mem_of_getElem? hcell) _ hmem

theorem eq_of_halts {fault : Fault} (hfault : g.Halts top s fault) :
    allocationFault? s.stack.segmentSize s.stack.itemBytes = some fault := by
  refine hfault.resolve_left fun hlacks => ?_
  obtain ⟨-, thing, hnamed, hmissing⟩ := hlacks
  rw [h.contains htop hnamed] at hmissing
  cases hmissing

end Closed

/-- Pushing the shape, from the state `s` on, takes the longest stretch of its lineage, shape by
shape. Where a segment of the stack cannot be allocated the marker may also stop before it has
taken the whole of it. -/
def PushesStretch (g : Graph) (top : ShapeId) (s : Marking ω) : Prop :=
  ∃ line stop, ∃ c : Chronicle ω,
    (g.LongestStretch s (some top) line stop ∧
      Chronicle.Takes (stretchSteps none line stop) line { toMarking := s } c ∧
      ChronM.pushShape g none top { toMarking := s } = .ok () c ∧
      MarkM.pushShape g top s = .ok () c.toMarking) ∨
    (g.Stretch s (some top) line stop ∧
      Chronicle.Takes (stretchSteps none line none) line { toMarking := s } c ∧
      ∃ fault, allocationFault? s.stack.segmentSize s.stack.itemBytes = some fault ∧
        ChronM.pushShape g none top { toMarking := s } = .error fault c ∧
        MarkM.pushShape g top s = .error fault c.toMarking)

/-- Pushing the shapes one after the other, from the state `s` on, counts a scan of every shape
that their lineages pass. Where a segment of the stack cannot be allocated the marker may also
stop on the way. -/
def PushesLineages (g : Graph) (tops : List ShapeId) (s : Marking ω) : Prop :=
  (∃ (members : List ShapeId) (t : Marking ω),
    tops.forM (MarkM.pushShape g) s = .ok () t ∧ members.Nodup ∧
    (∀ id, id ∈ members ↔ ∃ top ∈ tops, Relation.ReflTransGen g.Follows top id) ∧
    t.scanned.count .shape = s.scanned.count .shape + members.length) ∨
  ∃ fault t, allocationFault? s.stack.segmentSize s.stack.itemBytes = some fault ∧
    tops.forM (MarkM.pushShape g) s = .error fault t

section Pushes

variable (hclosed : g.Closed) (hreadable : g.Readable) (htwinned : g.Twinned)

include hclosed hreadable htwinned

/-- What is known of a push where nothing is missing. -/
theorem yields_pushShape (htop : g.contains top.thing = true) (horderly : s.Orderly) :
    Yields (ChronM.pushShape g none top) { toMarking := s }
      (fun _ => Chronicle.Covers g none (some top) { toMarking := s })
      fun fault c => allocationFault? s.stack.segmentSize s.stack.itemBytes = some fault ∧
        ∃ line stop, g.Stretch s (some top) line stop ∧
          Chronicle.Takes (stretchSteps none line none) line { toMarking := s } c := by
  refine (ChronM.goesAlong_pushShape hreadable htwinned .top none _).mono (fun _ _ => id)
    fun fault c hend => ?_
  obtain ⟨⟨line, stop, lost, hstretch, hlost, htakes⟩, hhalts⟩ := hend
  have hthere := hclosed.along hstretch.along fun _ hid => Option.some.inj hid ▸ htop
  have hnone : lost = none := Option.eq_none_iff_forall_ne_some.mpr fun id hid => by
    obtain ⟨hstop, hmissing⟩ := hlost id hid
    rw [hthere id hstop] at hmissing
    cases hmissing
  exact ⟨hclosed.eq_of_halts htop (hhalts horderly), line, stop, hstretch, hnone ▸ htakes⟩

theorem pushesStretch (htop : g.contains top.thing = true) (horderly : s.Orderly) :
    g.PushesStretch top s := by
  have hyields := yields_pushShape hclosed hreadable htwinned htop horderly
  have herases := ChronM.erases_pushShape g none top { toMarking := s }
  cases hrun : ChronM.pushShape g none top { toMarking := s } with
  | ok _ c =>
    rw [hrun] at herases
    obtain ⟨line, stop, hstretch, htakes⟩ := hyields.of_ok hrun
    exact ⟨line, stop, c, Or.inl ⟨hstretch.longest, htakes, hrun, herases.symm⟩⟩
  | error fault c =>
    rw [hrun] at herases
    obtain ⟨hfault, line, stop, hstretch, htakes⟩ := hyields.of_error hrun
    exact ⟨line, stop, c, Or.inr ⟨hstretch, htakes, fault, hfault, hrun, herases.symm⟩⟩

/-- The same without a chronicle. -/
theorem yields_pushShape_bare (htop : g.contains top.thing = true) (horderly : s.Orderly) :
    Yields (MarkM.pushShape g top) s
      (fun _ t => ∃ line stop, g.FullStretch s (some top) line stop ∧ s.Takes line t)
      fun fault _ => allocationFault? s.stack.segmentSize s.stack.itemBytes = some fault := by
  have hyields := yields_pushShape hclosed hreadable htwinned htop horderly
  refine ChronM.Erases.yields (ChronM.erases_pushShape g none top) { toMarking := s }
    (hyields.mono ?_ ?_)
  · intro _ c hcovers
    obtain ⟨line, stop, hstretch, htakes⟩ := hcovers
    exact ⟨line, stop, hstretch, htakes.marking⟩
  · exact fun _ _ => And.left

end Pushes

/-! Shapes pushed one after the other. -/

/-- The marker, which may mark everything, has taken the shapes that these lineages pass. -/
structure Gathers (g : Graph) (s : Marking ω) (tops members : List ShapeId) (t : Marking ω) :
    Prop where
  takes : s.Takes members t
  nodup : members.Nodup
  mem_iff : ∀ id, id ∈ members ↔ ∃ top ∈ tops, Relation.ReflTransGen g.Follows top id

theorem gathers_nil (s : Marking ω) : g.Gathers s [] [] s where
  takes := refl_of (Marking.Takes []) s
  nodup := List.nodup_nil
  mem_iff _ := ⟨fun hmem => absurd hmem List.not_mem_nil,
    fun ⟨_, hmem, _⟩ => absurd hmem List.not_mem_nil⟩

/-- A marker without a filter may take every shape that it has not taken. -/
theorem mayTake_of_bare (hfilter : s.context.compartment = none)
    (hbare : ∀ id : ShapeId, s.marks.isMarked id.thing = false)
    (hid : g.contains id.thing = true) : s.MayTake g id := by
  obtain ⟨compartment, hcompartment⟩ := (g.contains_iff_exists id.thing).mp hid
  refine ⟨⟨compartment, hcompartment, ?_⟩, hbare id⟩
  rw [hfilter]
  rfl

/-- The next stretch adds the shapes of its lineage that are not there yet. -/
theorem Gathers.cons (hclosed : g.Closed) (hfilter : s.context.compartment = none)
    (hbare : ∀ id : ShapeId, s.marks.isMarked id.thing = false) {tops members line : List ShapeId}
    {stop : Option ShapeId} {u : Marking ω} (h : g.Gathers s tops members t)
    (htop : g.contains top.thing = true) (hstretch : g.FullStretch t (some top) line stop)
    (htakes : t.Takes line u) : g.Gathers s (tops ++ [top]) (members ++ line) u where
  takes := h.takes.append htakes
  nodup := by
    refine List.nodup_append.mpr ⟨h.nodup, hstretch.nodup, fun old hold id hid heq => ?_⟩
    exact ((h.takes.mayTake_iff id).mp (hstretch.free id hid)).2 (heq ▸ hold)
  mem_iff id := by
    have htaken : ∀ one, g.contains one.thing = true → (t.MayTake g one → one ∈ line) →
        one ∈ members ++ line := by
      intro one hone hline
      by_cases hmem : one ∈ members
      · exact List.mem_append_left _ hmem
      · exact List.mem_append_right _ (hline ((h.takes.mayTake_iff one).mpr
          ⟨mayTake_of_bare hfilter hbare hone, hmem⟩))
    have hthere := hclosed.along hstretch.along fun _ hnext => Option.some.inj hnext ▸ htop
    have hstop : ∀ one, stop = some one → one ∈ members ++ line := fun one hone =>
      htaken one (hthere one hone) (hstretch.ends one hone)
    -- Behind the stretch the lineage goes on along shapes that have been taken before.
    have hreached : ∀ one, Relation.ReflTransGen g.Follows top one → one ∈ members ++ line := by
      intro one hreach
      induction hreach with
      | refl => exact hstretch.along.starts.elim (List.mem_append_right _) (hstop top)
      | @tail one previous _ hfollows ih =>
        rcases List.mem_append.mp ih with hold | hline
        · obtain ⟨first, hfirst, hreach⟩ := (h.mem_iff one).mp hold
          exact List.mem_append_left _ ((h.mem_iff previous).mpr
            ⟨first, hfirst, hreach.tail hfollows⟩)
        · exact (hstretch.along.follows hline hfollows).elim (List.mem_append_right _)
            (hstop previous)
    constructor
    · intro hmem
      rcases List.mem_append.mp hmem with hold | hline
      · obtain ⟨first, hfirst, hreach⟩ := (h.mem_iff id).mp hold
        exact ⟨first, List.mem_append_left _ hfirst, hreach⟩
      · exact ⟨top, List.mem_append_right _ (List.mem_singleton_self top),
          hstretch.along.reaches hline⟩
    · intro hgiven
      obtain ⟨first, hfirst, hreach⟩ := hgiven
      rcases List.mem_append.mp hfirst with hold | hlast
      · exact List.mem_append_left _ ((h.mem_iff id).mpr ⟨first, hold, hreach⟩)
      · obtain rfl := List.mem_singleton.mp hlast
        exact hreached id hreach

section Lineages

variable (hclosed : g.Closed) (hreadable : g.Readable) (htwinned : g.Twinned)
variable (hfilter : s.context.compartment = none)
variable (hbare : ∀ id : ShapeId, s.marks.isMarked id.thing = false) (horderly : s.Orderly)

include hclosed hreadable htwinned hfilter hbare horderly

theorem yields_pushShapes {done members tops : List ShapeId} (h : g.Gathers s done members t)
    (htops : ∀ top ∈ tops, g.contains top.thing = true) :
    Yields (tops.forM (MarkM.pushShape g)) t
      (fun _ u => ∃ members, g.Gathers s (done ++ tops) members u)
      fun fault _ => allocationFault? s.stack.segmentSize s.stack.itemBytes = some fault := by
  induction tops generalizing done members t with
  | nil => exact ⟨members, by rwa [List.append_nil]⟩
  | cons top tops ih =>
    have htop := htops top (List.mem_cons_self ..)
    have hproceeds := h.takes.proceeds
    refine yields_bind.mpr ((yields_pushShape_bare hclosed hreadable htwinned htop
      (hproceeds.orderly horderly)).mono (fun _ u hend => ?_) fun fault _ hend => ?_)
    · obtain ⟨line, stop, hstretch, htakes⟩ := hend
      have hmore := ih (h.cons hclosed hfilter hbare htop hstretch htakes)
        fun other hother => htops other (List.mem_cons_of_mem _ hother)
      rwa [List.append_assoc, List.singleton_append] at hmore
    · rwa [hproceeds.segmentSize, hproceeds.itemBytes] at hend

theorem pushesLineages {tops : List ShapeId}
    (htops : ∀ top ∈ tops, g.contains top.thing = true) : g.PushesLineages tops s := by
  have hyields := yields_pushShapes hclosed hreadable htwinned hfilter hbare horderly
    (gathers_nil s) htops
  cases hrun : tops.forM (MarkM.pushShape g) s with
  | ok _ t =>
    obtain ⟨members, hgathers⟩ := hyields.of_ok hrun
    exact Or.inl ⟨members, t, hrun, hgathers.nodup, hgathers.mem_iff, hgathers.takes.scanned⟩
  | error fault t =>
    exact Or.inr ⟨fault, t, hyields.of_error hrun, hrun⟩

end Lineages

end Graph

namespace Heap

/-- On a heap on which no shape refers to anything that is missing, a marker that is given a
shape takes the longest stretch of its lineage, at whatever point of its work it is given the
shape. A marker without a filter that has marked no shape takes every shape that the lineages
of the given ones pass, and takes it once. -/
theorem stretches_taken (history : List Construction) (hclosed : (built history).graph.Closed)
    (s : Marking ω) (horderly : s.Orderly) :
    let g := (built history).graph
    (∀ top : ShapeId, g.contains top.thing = true → g.PushesStretch top s) ∧
    (s.context.compartment = none → (∀ id : ShapeId, s.marks.isMarked id.thing = false) →
      ∀ tops : List ShapeId, (∀ top ∈ tops, g.contains top.thing = true) →
        g.PushesLineages tops s) := by
  intro g
  have hreadable := readable_built history
  have htwinned := twinned_built history
  exact ⟨fun top htop => Graph.pushesStretch hclosed hreadable htwinned htop horderly,
    fun hfilter hbare tops htops =>
      Graph.pushesLineages hclosed hreadable htwinned hfilter hbare horderly htops⟩

/-- Two shapes made upon each other, and a third one made upon the second. -/
def knotted : List Construction :=
  [.baseShape .atoms none none none none, .shape .atoms ⟨0⟩ .void (some ⟨1⟩),
    .shape .atoms ⟨0⟩ .void (some ⟨0⟩), .shape .atoms ⟨0⟩ (.int 1) (some ⟨1⟩)]

theorem stretches_taken_sample :
    let g := (built knotted).graph
    let L : Launch Unit := .sample 1 (some ⟨.rangeless, ()⟩)
    g.Closed ∧ L.start.Orderly ∧ g.PushesStretch ⟨2⟩ L.start ∧
      g.PushesLineages [⟨0⟩, ⟨2⟩, ⟨0⟩] L.start := by
  intro g L
  have hclosed : g.Closed := ⟨by decide +kernel, by decide +kernel⟩
  have horderly : L.start.Orderly := (L.origin g).orderly
  obtain ⟨hstretch, hlineages⟩ := stretches_taken knotted hclosed L.start horderly
  exact ⟨hclosed, horderly, hstretch ⟨2⟩ (by decide +kernel),
    hlineages rfl (fun id => L.unmarked id.thing) _ (by decide +kernel)⟩

/-- A shape with an accessor, made upon a shape without one. -/
def grafted : List Construction :=
  [.baseShape .atoms none none none none, .shape .atoms ⟨0⟩ .void none,
    .typeObject .atoms [] none none none, .object .atoms ⟨0⟩ ⟨0⟩ 0,
    .baseShape .atoms none (some ⟨0⟩) none none, .shape .atoms ⟨1⟩ .void (some ⟨0⟩)]

/-- Where no segment fits memory a marker may stop at the accessor of the first shape and leave
out the second one, although it may take both. -/
theorem stretch_cut_short :
    let g := (built grafted).graph
    let L : Launch Unit := .cramped none
    g.Closed ∧ L.start.Orderly ∧ g.LongestStretch L.start (some ⟨1⟩) [⟨1⟩, ⟨0⟩] none ∧
      ∃ t, MarkM.pushShape g ⟨1⟩ L.start = .error .capacityOverflow t ∧
        t.scanned.count .shape = 1 ∧ t.marks.isMarked (Ref.thing (⟨0⟩ : ShapeId)) = false := by
  intro g L
  have hclosed : g.Closed := ⟨by decide +kernel, by decide +kernel⟩
  have hstretch : g.FullStretch L.start (some ⟨1⟩) [⟨1⟩, ⟨0⟩] none := {
    along := .step rfl (.step rfl (.here _))
    free := fun id hid => by
      rcases List.mem_pair.mp hid with rfl | rfl
      · exact ⟨⟨.atoms, rfl, rfl⟩, L.unmarked _⟩
      · exact ⟨⟨.atoms, rfl, rfl⟩, L.unmarked _⟩
    nodup := by decide
    ends := nofun }
  obtain ⟨fault, t, hrun, hfault, hscanned, hunmarked⟩ : ∃ fault t,
      MarkM.pushShape g ⟨1⟩ L.start = .error fault t ∧ fault = .capacityOverflow ∧
        t.scanned.count .shape = 1 ∧ t.marks.isMarked (Ref.thing (⟨0⟩ : ShapeId)) = false :=
    Yields.exists_error (by decide +kernel) fun _ _ => id
  exact ⟨hclosed, (L.origin g).orderly, hstretch.longest, t, hfault ▸ hrun, hscanned,
    hunmarked⟩

end Heap

end MarkPhase
