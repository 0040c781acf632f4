import MarkPhase.Proofs.Edges
import MarkPhase.Proofs.Histories

/-!
Lineages come to an end. A shape is made on top of shapes that are there already, and no
call changes a shape once it is made, so that the shapes below one another have smaller
and smaller indices. A walk along a lineage therefore never runs out of steps, and it
reports only what is there.
-/

namespace MarkPhase

namespace Graph

/-- Every shape comes after the one before it in its lineage. -/
def Layered (g : Graph) : Prop :=
  ∀ id shape, g.shape? id = some shape → ∀ previous, shape.previous = some previous →
    previous.index < id.index

theorem Layered.of_eq {g g' : Graph} (h : g.Layered) (hshapes : g'.shapes = g.shapes) :
    g'.Layered := by
  intro id shape hid
  rw [shape?, hshapes] at hid
  exact h id shape hid

/-- A shape on top of one that is there already. -/
theorem Layered.push {g : Graph} (h : g.Layered) {cell : ShapeCell}
    (hprevious : ∀ previous, cell.previous = some previous → g.contains previous.thing = true) :
    ({ g with shapes := g.shapes.push cell } : Graph).Layered := by
  intro id shape hid previous heq
  unfold shape? at hid
  rw [Array.getElem?_push] at hid
  split at hid
  · rename_i hlast
    obtain rfl := Option.some.inj hid
    have hlt : previous.index < g.shapes.size := of_decide_eq_true (hprevious previous heq)
    exact hlast ▸ hlt
  · exact h id shape hid previous heq

end Graph

namespace Heap

theorem layered_after {heap : Heap} (h : heap.graph.Layered) {call : Construction}
    (hcall : call.KnownOn heap.graph) : (heap.after call).graph.Layered := by
  by_cases hkind : call.kind? = some .shape
  · cases call with
    | shape c base property previous =>
      refine Graph.Layered.push (show heap.graph.Layered from h) fun before hbefore => hcall.1 _ ?_
      have hprevious : previous = some before := hbefore
      simp [Construction.references, hprevious]
    | _ => cases hkind
  · exact h.of_eq (after_of_yields (Construction.spares_perform hkind heap)).cells

/-- Lineages on a heap that a grounded history builds come to an end. -/
theorem layered_built {history : List Construction} (h : Grounded history) :
    (built history).graph.Layered := by
  induction history using List.reverseRecOn with
  | nil => simp [built, empty, Graph.Layered, Graph.shape?]
  | append_singleton before call ih =>
    simp only [built, List.foldl_append, List.foldl_cons, List.foldl_nil]
    exact layered_after (ih h.init) (h before call [] rfl)

end Heap

/-! Walks along lineages. -/

namespace Graph

variable {g : Graph}

/-- What a walk goes on with: the cells of a shape that is there. -/
theorem Sound.exists_cells (h : g.Sound) {id : ShapeId} (hid : g.contains id.thing = true) :
    ∃ shape base, g.shape? id = some shape ∧ g.baseShape? shape.base = some base ∧
      (∀ thing ∈ shape.references, g.contains thing = true) ∧
      ∀ thing ∈ base.references, g.contains thing = true := by
  obtain ⟨shape, hshape⟩ := exists_shape hid
  have hreferences := (h.shape hshape).2
  have hthere : g.contains shape.base.thing = true :=
    hreferences _ (by simp [ShapeCell.references])
  obtain ⟨base, hbase⟩ := exists_baseShape hthere
  exact ⟨shape, base, hshape, hbase, hreferences, (h.baseShape hbase).1.2⟩

theorem contains_previous {shape : ShapeCell}
    (h : ∀ thing ∈ shape.references, g.contains thing = true) :
    ∀ id, shape.previous = some id → g.contains id.thing = true :=
  fun id hprevious => h _ (by simp [ShapeCell.references, hprevious])

/-- A walk with more steps than the index of the shape it starts from goes on to the end. -/
theorem Layered.labelled_lineageFrom (hlayered : g.Layered) (h : g.Sound) (steps : Nat)
    (lastParent : Option ObjectId) {next : Option ShapeId}
    (hnext : ∀ id, next = some id → g.contains id.thing = true ∧ id.index < steps) :
    Labelled (fun _ => True) (lineageFrom g steps lastParent next) := by
  induction steps generalizing lastParent next with
  | zero =>
    cases next with
    | none => exact .nil
    | some id => exact absurd (hnext id rfl).2 (Nat.not_lt_zero _)
  | succ steps ih =>
    cases next with
    | none => exact .nil
    | some id =>
      obtain ⟨hcontains, hindex⟩ := hnext id rfl
      obtain ⟨shape, base, hshape, hbase, hreferences, -⟩ := h.exists_cells hcontains
      have hparent : Labelled (fun _ => True) (if base.parent = lastParent then []
          else fieldVisits "parent" base.parent) := by
        split
        · exact .nil
        · exact .fieldVisits trivial _
      have hrest := ih (base.parent.or lastParent) fun previous hprevious =>
        ⟨contains_previous hreferences previous hprevious,
          Nat.lt_of_lt_of_le (hlayered id shape hshape previous hprevious)
            (Nat.le_of_lt_succ hindex)⟩
      rw [lineageFrom, hshape]
      simp only [hbase]
      exact ((((Labelled.fieldVisits trivial _).append (.fieldVisits trivial _)).append
        hparent).append (.edgeVisits trivial _)).append hrest

/-- A walk along a lineage reports what is there. -/
theorem Sound.contains_of_lineageFrom (h : g.Sound) {thing : Thing} (steps : Nat)
    (lastParent : Option ObjectId) {next : Option ShapeId}
    (hnext : ∀ id, next = some id → g.contains id.thing = true)
    (hmem : .report thing ∈ lineageFrom g steps lastParent next) : g.contains thing = true := by
  induction steps generalizing lastParent next with
  | zero => cases next <;> simp [lineageFrom] at hmem
  | succ steps ih =>
    cases next with
    | none => simp [lineageFrom] at hmem
    | some id =>
      obtain ⟨shape, base, hshape, hbase, hreferences, hfields⟩ := h.exists_cells (hnext id rfl)
      rw [lineageFrom, hshape] at hmem
      simp only [hbase, accessorVisits, List.mem_append, report_mem_fieldVisits,
        report_mem_edgeVisits] at hmem
      rcases hmem with (((hgetter | hsetter) | hparent) | hproperty) | hlater
      · exact hfields thing (by simp only [BaseShapeCell.references, List.mem_append, hgetter,
          true_or])
      · exact hfields thing (by simp only [BaseShapeCell.references, List.mem_append, hsetter,
          true_or, or_true])
      · split at hparent
        · exact absurd hparent List.not_mem_nil
        · exact hfields thing (by simp only [BaseShapeCell.references, List.mem_append,
            report_mem_fieldVisits.mp hparent, true_or, or_true])
      · exact hreferences thing (by simp [ShapeCell.references, hproperty])
      · exact ih _ (contains_previous hreferences) hlater

end Graph

end MarkPhase
