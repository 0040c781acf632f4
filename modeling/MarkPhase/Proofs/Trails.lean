import MarkPhase.Proofs.Dangling
import MarkPhase.Proofs.Labels

/-!
The walk along a lineage on a graph of which nothing is known. A lineage that does not come
back to one of its shapes has an end, since there are only so many shapes; it may be a shape
that is not there. The walk then passes the shapes of the lineage one after the other, each
of them once, and it stops early only where something is named that is not there.
-/

namespace MarkPhase

namespace Graph

variable {g : Graph}

/-- The second shape is the predecessor of the first in its lineage. -/
def Follows (g : Graph) (id previous : ShapeId) : Prop :=
  ∃ cell, g.shape? id = some cell ∧ cell.previous = some previous

/-- The lineage of a shape never comes back to a shape that it has passed. -/
def Straight (g : Graph) (top : ShapeId) : Prop :=
  ∀ id, Relation.ReflTransGen g.Follows top id → ¬ Relation.TransGen g.Follows id id

/-- The shapes of the lineage that goes on at a shape, or is at its end. The last one may not
be there. -/
inductive Trail (g : Graph) : Option ShapeId → List ShapeId → Prop
  | ended : Trail g none []
  | lost {id : ShapeId} : g.shape? id = none → Trail g (some id) [id]
  | step {id : ShapeId} {cell : ShapeCell} {rest : List ShapeId} : g.shape? id = some cell →
      Trail g cell.previous rest → Trail g (some id) (id :: rest)

/-- Shapes that are there and of which none is listed twice. -/
theorem length_le_of_nodup {line : List ShapeId} (hnodup : line.Nodup)
    (hthere : ∀ id ∈ line, g.contains id.thing = true) : line.length ≤ g.shapes.size := by
  have hindices : (line.map Ref.index).Nodup :=
    hnodup.map fun a b heq => by cases a; cases b; exact congrArg Ref.mk heq
  have hsubset : line.map Ref.index ⊆ List.range g.shapes.size := by
    intro index hindex
    obtain ⟨id, hid, rfl⟩ := List.mem_map.mp hindex
    exact List.mem_range.mpr (of_decide_eq_true (hthere id hid))
  simpa using (hindices.subperm hsubset).length_le

namespace Trail

variable {next : Option ShapeId} {line other : List ShapeId} {id : ShapeId}

/-- A lineage has one end. -/
theorem unique (h : g.Trail next line) (h' : g.Trail next other) : line = other := by
  induction h generalizing other with
  | ended => cases h'; rfl
  | lost hid =>
    cases h' with
    | lost => rfl
    | step hcell => rw [hid] at hcell; cases hcell
  | step hid _ ih =>
    cases h' with
    | lost hnone => rw [hid] at hnone; cases hnone
    | step hcell hrest =>
      obtain rfl := Option.some.inj (hid.symm.trans hcell)
      rw [ih hrest]

/-- From each of its shapes on, a lineage is no longer than it is altogether. -/
theorem exists_rest (h : g.Trail next line) (hid : id ∈ line) :
    ∃ rest, g.Trail (some id) rest ∧ rest.length ≤ line.length := by
  induction h with
  | ended => exact absurd hid List.not_mem_nil
  | lost hnone =>
    obtain rfl := List.mem_singleton.mp hid
    exact ⟨_, .lost hnone, Nat.le_refl _⟩
  | step hcell hrest ih =>
    rcases List.mem_cons.mp hid with rfl | hlater
    · exact ⟨_, .step hcell hrest, Nat.le_refl _⟩
    · obtain ⟨rest, htrail, hle⟩ := ih hlater
      exact ⟨rest, htrail, Nat.le_succ_of_le hle⟩

/-- A lineage that has an end passes no shape twice. -/
theorem nodup (h : g.Trail next line) : line.Nodup := by
  induction h with
  | ended => exact List.nodup_nil
  | lost => exact List.nodup_singleton _
  | step hcell hrest ih =>
    refine List.nodup_cons.mpr ⟨fun hagain => ?_, ih⟩
    obtain ⟨rest, htrail, hle⟩ := hrest.exists_rest hagain
    rw [htrail.unique (.step hcell hrest)] at hle
    exact absurd hle (Nat.not_succ_le_self _)

/-- Only the last shape may not be there. -/
theorem length_le_there (h : g.Trail next line) :
    line.length ≤ (line.filter fun id => g.contains id.thing).length + 1 := by
  induction h with
  | ended => exact Nat.zero_le _
  | lost => exact Nat.le_add_left ..
  | step hcell _ ih =>
    rw [List.filter_cons, if_pos (contains_of_getElem? rfl hcell)]
    exact Nat.succ_le_succ ih

theorem length_le (h : g.Trail next line) : line.length ≤ g.shapes.size + 1 := by
  have hthere : (line.filter fun id => g.contains id.thing).length ≤ g.shapes.size :=
    length_le_of_nodup (h.nodup.filter _) fun id hid => (List.mem_filter.mp hid).2
  exact Nat.le_trans h.length_le_there (Nat.succ_le_succ hthere)

/-- Further on, less of the lineage is left. -/
theorem of_follows (h : g.Trail (some id) line) {later : ShapeId}
    (hlater : Relation.TransGen g.Follows id later) :
    ∃ rest, g.Trail (some later) rest ∧ rest.length < line.length := by
  have hstep : ∀ {one next : ShapeId} {line : List ShapeId}, g.Trail (some one) line →
      g.Follows one next → ∃ rest, g.Trail (some next) rest ∧ rest.length < line.length := by
    intro one next line hline hfollows
    obtain ⟨cell, hcell, hprevious⟩ := hfollows
    cases hline with
    | lost hnone => rw [hcell] at hnone; cases hnone
    | step hother hrest =>
      obtain rfl := Option.some.inj (hcell.symm.trans hother)
      exact ⟨_, hprevious ▸ hrest, Nat.lt_succ_self _⟩
  induction hlater with
  | single hfollows => exact hstep h hfollows
  | tail _ hfollows ih =>
    obtain ⟨rest, hrest, hlt⟩ := ih
    obtain ⟨further, hfurther, hless⟩ := hstep hrest hfollows
    exact ⟨further, hfurther, Nat.lt_trans hless hlt⟩

/-- A lineage that has an end does not come back. -/
theorem straight {top : ShapeId} (h : g.Trail (some top) line) : g.Straight top := by
  intro id hreach hback
  have htrail : ∃ rest, g.Trail (some id) rest := by
    rcases Relation.reflTransGen_iff_eq_or_transGen.mp hreach with rfl | hlater
    · exact ⟨line, h⟩
    · obtain ⟨rest, hrest, -⟩ := h.of_follows hlater
      exact ⟨rest, hrest⟩
  obtain ⟨rest, hrest⟩ := htrail
  obtain ⟨again, hagain, hlt⟩ := hrest.of_follows hback
  rw [hagain.unique hrest] at hlt
  exact Nat.lt_irrefl _ hlt

/-- Every shape of the lineage is named. -/
theorem names (h : g.Trail next line) {top : ShapeId}
    (hnext : ∀ id, next = some id → g.Names top id.thing) : ∀ id ∈ line, g.Names top id.thing := by
  induction h with
  | ended => nofun
  | lost => exact fun id hid => hnext id (by rw [List.mem_singleton.mp hid])
  | step hcell hrest ih =>
    intro id hid
    have hfirst := hnext _ rfl
    rcases List.mem_cons.mp hid with rfl | hlater
    · exact hfirst
    · exact ih (fun previous hprevious => hfirst.previous hcell hprevious) id hlater

end Trail

/-- On the way from `top` to `id` these shapes have been passed, all of them different. -/
private structure Passed (g : Graph) (top : ShapeId) (passed : List ShapeId) (id : ShapeId) :
    Prop where
  nodup : passed.Nodup
  there : ∀ before ∈ passed, g.contains before.thing = true
  follows : ∀ before ∈ passed, Relation.TransGen g.Follows before id
  reaches : Relation.ReflTransGen g.Follows top id

namespace Passed

variable {top id previous : ShapeId} {passed : List ShapeId} {cell : ShapeCell}

/-- A shape on a straight lineage has not been passed before. -/
private theorem cons (h : g.Passed top passed id) (hstraight : g.Straight top)
    (hid : g.shape? id = some cell) :
    (id :: passed).Nodup ∧ ∀ before ∈ id :: passed, g.contains before.thing = true := by
  refine ⟨List.nodup_cons.mpr ⟨fun hold => hstraight id h.reaches (h.follows id hold), h.nodup⟩,
    fun before hbefore => ?_⟩
  rcases List.mem_cons.mp hbefore with rfl | hold
  · exact contains_of_getElem? rfl hid
  · exact h.there before hold

private theorem step (h : g.Passed top passed id) (hstraight : g.Straight top)
    (hid : g.shape? id = some cell) (hprevious : cell.previous = some previous) :
    g.Passed top (id :: passed) previous where
  nodup := (h.cons hstraight hid).1
  there := (h.cons hstraight hid).2
  follows before hbefore := by
    have hfollows : g.Follows id previous := ⟨cell, hid, hprevious⟩
    rcases List.mem_cons.mp hbefore with rfl | hold
    · exact .single hfollows
    · exact (h.follows before hold).tail hfollows
  reaches := h.reaches.tail ⟨cell, hid, hprevious⟩

/-- As long as fewer shapes have been passed than there are, the way may go on. -/
private theorem exists_trail (hstraight : g.Straight top) (left : Nat)
    (h : g.Passed top passed id) (hleft : g.shapes.size < passed.length + left) :
    ∃ line, g.Trail (some id) line := by
  induction left generalizing passed id with
  | zero => exact absurd hleft (Nat.not_lt.mpr (length_le_of_nodup h.nodup h.there))
  | succ left ih =>
    cases hid : g.shape? id with
    | none => exact ⟨_, .lost hid⟩
    | some cell =>
      cases hprevious : cell.previous with
      | none => exact ⟨_, .step hid (by rw [hprevious]; exact .ended)⟩
      | some previous =>
        obtain ⟨line, hline⟩ := ih (h.step hstraight hid hprevious)
          (by rw [List.length_cons]; omega)
        exact ⟨_, .step hid (by rw [hprevious]; exact hline)⟩

end Passed

/-- A lineage that does not come back has an end. -/
theorem Straight.exists_trail {top : ShapeId} (h : g.Straight top) :
    ∃ line, g.Trail (some top) line :=
  Passed.exists_trail h (g.shapes.size + 1) ⟨List.nodup_nil, nofun, nofun, .refl⟩
    (by simp)

end Graph

/-! The walk. -/

/-- The visits of a walk that passes the given shapes. It breaks off at a shape that is not
there, or whose base shape is not there. -/
def visitsAlong (g : Graph) (lastParent : Option ObjectId) : List ShapeId → List Visit
  | [] => []
  | id :: rest =>
    match g.shape? id with
    | none => [.broken .outOfBounds]
    | some shape =>
      match g.baseShape? shape.base with
      | none => [.broken .outOfBounds]
      | some base =>
        accessorVisits base ++
        (if base.parent = lastParent then [] else fieldVisits "parent" base.parent) ++
        edgeVisits (.named "propid") shape.property.thing? ++
        visitsAlong g (base.parent.or lastParent) rest

namespace Graph

variable {g : Graph} {top : ShapeId} {line : List ShapeId}

/-- With enough steps a walk goes along the whole lineage. -/
theorem Trail.lineageFrom_eq {next : Option ShapeId} (h : g.Trail next line) {steps : Nat}
    (hsteps : line.length ≤ steps) (lastParent : Option ObjectId) :
    lineageFrom g steps lastParent next = visitsAlong g lastParent line := by
  induction h generalizing steps lastParent with
  | ended => rw [lineageFrom, visitsAlong]
  | lost hid =>
    cases steps with
    | zero => exact absurd hsteps (Nat.not_succ_le_zero _)
    | succ steps => simp only [lineageFrom, visitsAlong, hid]
  | @step id cell rest hid _ ih =>
    cases steps with
    | zero => exact absurd hsteps (Nat.not_succ_le_zero _)
    | succ steps =>
      cases hbase : g.baseShape? cell.base with
      | none => simp only [lineageFrom, visitsAlong, hid, hbase]
      | some base =>
        simp only [lineageFrom, visitsAlong, hid, hbase, ih (Nat.le_of_succ_le_succ hsteps)]

/-! Why a walk stops early. -/

section Stops

variable {visit : Visit} {fault : Fault}

private theorem dangles_of_edgeVisits {label : Label} {thing : Option Thing}
    (hnamed : ∀ one, thing = some one → g.Names top one)
    (hmem : visit ∈ edgeVisits label thing) (hstops : visit.Stops g fault) :
    g.Dangles top fault := by
  rcases List.mem_cons.mp hmem with rfl | hreport
  · exact hstops.elim
  · obtain ⟨one, hone, rfl⟩ := Option.map_eq_some_iff.mp (Option.mem_toList.mp hreport)
    exact (hnamed one hone).dangles_of_objection hstops

private theorem dangles_of_fieldVisits {kind : Kind} {name : String} {ref : Option (Ref kind)}
    (hnamed : ∀ one ∈ refThings ref, g.Names top one)
    (hmem : visit ∈ fieldVisits name ref) (hstops : visit.Stops g fault) :
    g.Dangles top fault := by
  cases ref with
  | none => exact absurd hmem List.not_mem_nil
  | some id =>
    refine dangles_of_edgeVisits (fun one hone => hnamed one ?_) hmem hstops
    exact mem_refThings.mpr ⟨id, rfl, Option.some.inj hone⟩

/-- A walk along named shapes is stopped only by something named that is not there. -/
theorem dangles_of_visitsAlong (hline : ∀ id ∈ line, g.Names top id.thing)
    (lastParent : Option ObjectId) (hmem : visit ∈ visitsAlong g lastParent line)
    (hstops : visit.Stops g fault) : g.Dangles top fault := by
  induction line generalizing lastParent with
  | nil => exact absurd hmem List.not_mem_nil
  | cons id rest ih =>
    have hid : g.Names top id.thing := hline id (List.mem_cons_self ..)
    have hbreak : ∀ {thing}, g.Names top thing → g.contains thing = false →
        visit ∈ [Visit.broken .outOfBounds] → g.Dangles top fault := by
      intro thing hnamed hmissing hbroken
      obtain rfl := List.mem_singleton.mp hbroken
      obtain rfl : Fault.outOfBounds = fault := hstops
      exact .missing hnamed hmissing
    rw [visitsAlong] at hmem
    cases hshape : g.shape? id with
    | none =>
      rw [hshape] at hmem
      exact hbreak hid (contains_eq_false_of_shape hshape) hmem
    | some shape =>
      have hnamedBase := hid.base hshape
      cases hbase : g.baseShape? shape.base with
      | none =>
        simp only [hshape, hbase] at hmem
        exact hbreak hnamedBase (contains_eq_false_of_baseShape hbase) hmem
      | some base =>
        have hfield : ∀ {kind : Kind} (ref : Option (Ref kind)),
            (∀ one ∈ refThings ref, one ∈ base.references) →
            ∀ one ∈ refThings ref, g.Names top one :=
          fun _ hrefs one hone => .baseShape hnamedBase hbase (hrefs one hone)
        simp only [hshape, hbase, accessorVisits, List.mem_append] at hmem
        rcases hmem with (((hgetter | hsetter) | hparent) | hproperty) | hlater
        · exact dangles_of_fieldVisits (hfield base.getter fun one hone => by
            simp [BaseShapeCell.references, hone]) hgetter hstops
        · exact dangles_of_fieldVisits (hfield base.setter fun one hone => by
            simp [BaseShapeCell.references, hone]) hsetter hstops
        · split at hparent
          · exact absurd hparent List.not_mem_nil
          · exact dangles_of_fieldVisits (hfield base.parent fun one hone => by
              simp [BaseShapeCell.references, hone]) hparent hstops
        · exact dangles_of_edgeVisits (fun one hone => hid.property hshape hone) hproperty hstops
        · exact ih (fun one hone => hline one (List.mem_cons_of_mem _ hone)) _ hlater

end Stops

/-- The walk along a lineage that does not come back passes its shapes in their order and each
of them once, and stops early only where something is named that is not there. -/
theorem Straight.exists_line (h : g.Straight top) :
    ∃ line, g.Trail (some top) line ∧ line.Nodup ∧
      lineageVisits g top = visitsAlong g none line ∧
      ∀ t, Yields (TraceM.make g (.lineage top)) t (fun _ _ => True)
        fun fault _ => g.Dangles top fault := by
  obtain ⟨line, hline⟩ := h.exists_trail
  have hvisits := hline.lineageFrom_eq hline.length_le none
  have hnamed : ∀ id ∈ line, g.Names top id.thing := by
    refine hline.names fun id hid => ?_
    obtain rfl := Option.some.inj hid
    exact .top
  refine ⟨line, hline, hline.nodup, hvisits, fun t => ?_⟩
  refine (TraceM.yields_forM_visit (lineageVisits g top) t).mono (fun _ _ _ => trivial) ?_
  intro fault _ hstop
  obtain ⟨visit, hmem, hstops⟩ := hstop
  rw [lineageVisits, hvisits] at hmem
  exact dangles_of_visitsAlong hnamed none hmem hstops

end Graph

end MarkPhase
