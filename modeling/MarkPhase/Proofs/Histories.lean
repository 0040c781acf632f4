import MarkPhase.Proofs.Building
import MarkPhase.Proofs.Frames

/-!
What building calls leave alone. A call has to do with things of one kind at most: the
cells of every other kind are the same before and after it, wherever it stops, and no call
but the one that adds a script has to do with filenames. So what is to be shown of the
things of one kind has to be shown of a few calls only.
-/

namespace MarkPhase

namespace Graph

/-- The cells of a kind are the same on both graphs. -/
def SameCells (kind : Kind) (g g' : Graph) : Prop :=
  match kind with
  | .object => g'.objects = g.objects
  | .string => g'.strings = g.strings
  | .script => g'.scripts = g.scripts
  | .shape => g'.shapes = g.shapes
  | .baseShape => g'.baseShapes = g.baseShapes
  | .typeObject => g'.typeObjects = g.typeObjects
  | .xml => g'.xmlNodes = g.xmlNodes

instance (kind : Kind) : IsPreorder Graph (SameCells kind) where
  refl g := by cases kind <;> rfl
  trans g g' g'' h h' := by cases kind <;> exact Eq.trans h' h

/-- The change leaves the things of every other kind as they are. -/
def Confines (owner : Kind) (change : Graph → Graph) : Prop :=
  ∀ kind, kind ≠ owner → ∀ g : Graph, g.SameCells kind (change g)

theorem confines_objects (cells : Graph → Array ObjectCell) :
    Confines .object fun g => { g with objects := cells g } := by
  intro kind hne g
  cases kind <;> first | exact absurd rfl hne | rfl

theorem confines_strings (cells : Graph → Array StringCell) :
    Confines .string fun g => { g with strings := cells g } := by
  intro kind hne g
  cases kind <;> first | exact absurd rfl hne | rfl

theorem confines_scripts (cells : Graph → Array ScriptCell) :
    Confines .script fun g => { g with scripts := cells g } := by
  intro kind hne g
  cases kind <;> first | exact absurd rfl hne | rfl

theorem confines_shapes (cells : Graph → Array ShapeCell) :
    Confines .shape fun g => { g with shapes := cells g } := by
  intro kind hne g
  cases kind <;> first | exact absurd rfl hne | rfl

theorem confines_baseShapes (cells : Graph → Array BaseShapeCell) :
    Confines .baseShape fun g => { g with baseShapes := cells g } := by
  intro kind hne g
  cases kind <;> first | exact absurd rfl hne | rfl

theorem confines_typeObjects (cells : Graph → Array TypeCell) :
    Confines .typeObject fun g => { g with typeObjects := cells g } := by
  intro kind hne g
  cases kind <;> first | exact absurd rfl hne | rfl

theorem confines_xmlNodes (cells : Graph → Array XmlCell) :
    Confines .xml fun g => { g with xmlNodes := cells g } := by
  intro kind hne g
  cases kind <;> first | exact absurd rfl hne | rfl

theorem confines_atoms (owner : Kind) (atoms : Graph → List (String × StringId)) :
    Confines owner fun g => { g with atoms := atoms g } := by
  intro kind _ g
  cases kind <;> rfl

end Graph

namespace Heap

/-- The things of a kind are the same on both heaps, and with the scripts their names. -/
structure Spares (kind : Kind) (heap next : Heap) : Prop where
  cells : heap.graph.SameCells kind next.graph
  filenames : kind = .script → next.ledger.filenames = heap.ledger.filenames

instance (kind : Kind) : IsPreorder Heap (Spares kind) where
  refl heap := ⟨refl_of _ heap.graph, fun _ => rfl⟩
  trans _ _ _ h h' := ⟨trans_of _ h.cells h'.cells, fun hkind =>
    (h'.filenames hkind).trans (h.filenames hkind)⟩

end Heap

/-- The kind of the things that a call has to do with, if there are any. -/
def Construction.kind? : Construction → Option Kind
  | .compartment _ => none
  | .string .. => some .string
  | .atom _ => some .string
  | .dependent .. => some .string
  | .concat .. => some .string
  | .baseShape .. => some .baseShape
  | .ownedBaseShape _ => some .baseShape
  | .shape .. => some .shape
  | .typeObject .. => some .typeObject
  | .singleton .. => some .typeObject
  | .newScript .. => some .typeObject
  | .typeProperty .. => some .typeObject
  | .object .. => some .object
  | .slot .. => some .object
  | .objectShape .. => some .object
  | .element .. => some .object
  | .privateThing .. => some .object
  | .script _ => some .script
  | .xml .. => some .xml
  | .xmlName .. => some .xml
  | .xmlValue .. => some .xml
  | .xmlObject .. => some .xml
  | .xmlKid .. => some .xml
  | .xmlAttr .. => some .xml

namespace Builder

/-- The call leaves the things of every other kind as they are. -/
def KeepsTo {α : Type} (owner : Kind) (call : Builder α) : Prop :=
  ∀ kind, kind ≠ owner → Respects (Heap.Spares kind) call

namespace KeepsTo

open MarkPhase.Graph

variable {owner : Kind} {α β : Type}

theorem updateGraph {change : Graph → Graph} (h : Confines owner change) :
    KeepsTo owner (updateGraph change) :=
  fun kind hne => .modify fun heap => ⟨h kind hne heap.graph, fun _ => rfl⟩

theorem add {kind : Kind} {store : Graph → Graph} (h : Confines owner store) :
    KeepsTo owner (add store : Builder (Ref kind)) :=
  fun other hne => .modifyGet fun heap => ⟨h other hne heap.graph, fun _ => rfl⟩

theorem pure (a : α) : KeepsTo owner (pure a : Builder α) :=
  fun _ _ => .pure a

theorem throw (fault : Fault) : KeepsTo owner (throw fault : Builder α) :=
  fun _ _ => .throw fault

theorem get : KeepsTo owner (get : Builder Heap) :=
  fun _ _ => .get

theorem need (found : Option α) : KeepsTo owner (need found : Builder α) :=
  fun _ _ => .need found

theorem allocate (count size : Nat) : KeepsTo owner (allocate count size : Builder Unit) :=
  fun _ _ => .allocate count size

theorem bind {m : Builder α} {f : α → Builder β} (hm : KeepsTo owner m)
    (hf : ∀ a, KeepsTo owner (f a)) : KeepsTo owner (m >>= f) :=
  fun kind hne => .bind (hm kind hne) fun a => hf a kind hne

theorem ite {c : Prop} [Decidable c] {m n : Builder α} (hm : KeepsTo owner m)
    (hn : KeepsTo owner n) : KeepsTo owner (if c then m else n) :=
  fun kind hne => .ite (hm kind hne) (hn kind hne)

theorem check {c : Prop} [Decidable c] {fault : Fault} {m : Builder α} (hm : KeepsTo owner m) :
    KeepsTo owner (if c then MonadExcept.throw fault >>= fun (_ : PUnit) => m else m) :=
  fun kind hne => .check (hm kind hne)

theorem addString (cell : StringCell) : KeepsTo .string (addString cell) :=
  add (confines_strings _)

theorem addBaseShape (cell : BaseShapeCell) : KeepsTo .baseShape (addBaseShape cell) :=
  add (confines_baseShapes _)

theorem edit {kind : Kind} (ref : Ref kind) {change : Graph → Graph}
    (h : Confines owner change) : KeepsTo owner (edit ref change) :=
  bind get fun _ => ite (updateGraph h) (throw _)

theorem editType (type : TypeObjectId) (change : TypeCell → TypeCell) :
    KeepsTo .typeObject (editType type change) :=
  edit type (confines_typeObjects _)

theorem editObject (object : ObjectId) (change : ObjectCell → ObjectCell) :
    KeepsTo .object (editObject object change) :=
  edit object (confines_objects _)

theorem editXml (node : XmlId) (change : XmlCell → XmlCell) :
    KeepsTo .xml (editXml node change) :=
  edit node (confines_xmlNodes _)

theorem atomize (chars : String) : KeepsTo .string (atomize chars) := by
  refine bind get fun heap => ?_
  split
  · exact pure _
  · exact bind (addString _) fun id => bind (updateGraph (confines_atoms _ _)) fun _ => pure _

theorem newDependent (compartment : CompartmentId) (base : StringId) (start length : Nat) :
    KeepsTo .string (newDependent compartment base start length) := by
  have hchars : KeepsTo .string (lookUp fun g => g.linearChars base) := by
    refine bind get fun heap => ?_
    split
    · exact pure _
    · exact throw _
  refine bind hchars fun chars => check ?_
  split
  · exact addString _
  · exact throw _

theorem concat (compartment : CompartmentId) (left right : StringId) :
    KeepsTo .string (concat compartment left right) :=
  bind get fun _ => bind (need _) fun _ => bind get fun _ => bind (need _) fun _ =>
    check (addString _)

theorem newOwnedBaseShape (twin : BaseShapeId) :
    KeepsTo .baseShape (newOwnedBaseShape twin) :=
  bind get fun _ => bind (need _) fun _ => check (addBaseShape _)

theorem newObject (compartment : CompartmentId) (type : TypeObjectId) (shape : ShapeId)
    (fixed : Nat) : KeepsTo .object (newObject compartment type shape fixed) :=
  bind (allocate _ _) fun _ => add (confines_objects _)

theorem setSlot (object : ObjectId) (index : Nat) (value : Value) :
    KeepsTo .object (setSlot object index value) := by
  refine bind get fun heap => bind (need _) fun cell =>
    check (bind (allocate _ _) fun _ => ?_)
  split
  · exact editObject object _
  · exact throw _

theorem newScript (script : ScriptCell) : KeepsTo .script (newScript script) := by
  have hadd : KeepsTo .script (Builder.add fun g => { g with scripts := g.scripts.push script } :
      Builder ScriptId) := add (confines_scripts _)
  unfold Builder.newScript
  split
  · exact bind (fun kind hne => .modify fun heap =>
      ⟨refl_of _ heap.graph, fun heq => absurd heq hne⟩) fun _ => hadd
  · exact hadd

end KeepsTo

end Builder

namespace Construction

open Builder MarkPhase.Graph

variable {call : Construction}

/-- A call keeps to the things that it has to do with. -/
theorem keepsTo_perform {owner : Kind} (h : call.kind? = some owner) :
    KeepsTo owner call.perform := by
  have hmade : ∀ {kind : Kind} {part : Builder (Ref kind)}, KeepsTo owner part →
      KeepsTo owner (made part) := fun hpart => .bind hpart fun _ => .pure _
  have hdone : ∀ {part : Builder Unit}, KeepsTo owner part → KeepsTo owner (done part) :=
    fun hpart => .bind hpart fun _ => .pure _
  cases call with
  | compartment name => cases h
  | string c chars => cases h; exact hmade (.addString _)
  | atom chars => cases h; exact hmade (.atomize chars)
  | dependent c base start length => cases h; exact hmade (.newDependent c base start length)
  | concat c left right => cases h; exact hmade (.concat c left right)
  | baseShape c declared getter setter parent => cases h; exact hmade (.addBaseShape _)
  | ownedBaseShape twin => cases h; exact hmade (.newOwnedBaseShape twin)
  | shape c base property previous => cases h; exact hmade (.add (confines_shapes _))
  | typeObject c properties proto function ctor =>
    cases h; exact hmade (.add (confines_typeObjects _))
  | singleton type owner isLazy => cases h; exact hdone (.editType type _)
  | newScript type ctor => cases h; exact hdone (.editType type _)
  | typeProperty type id => cases h; exact hdone (.editType type _)
  | object c type lineage fixed => cases h; exact hmade (.newObject c type lineage fixed)
  | slot owner index value => cases h; exact hdone (.setSlot owner index value)
  | objectShape owner lineage => cases h; exact hdone (.editObject owner _)
  | element owner value => cases h; exact hdone (.editObject owner _)
  | privateThing owner thing => cases h; exact hdone (.editObject owner _)
  | script cell => cases h; exact hmade (.newScript cell)
  | xml c kind => cases h; exact hmade (.add (confines_xmlNodes _))
  | xmlName node name => cases h; exact hdone (.editXml node _)
  | xmlValue node value => cases h; exact hdone (.editXml node _)
  | xmlObject node reflected => cases h; exact hdone (.editXml node _)
  | xmlKid node kid => cases h; exact hdone (.bind (.editXml kid _) fun _ => .editXml node _)
  | xmlAttr node attr => cases h; exact hdone (.bind (.editXml attr _) fun _ => .editXml node _)

/-- Things of a kind are the same after a call that has to do with others. -/
theorem spares_perform {kind : Kind} (h : call.kind? ≠ some kind) :
    Respects (Heap.Spares kind) call.perform := by
  cases howner : call.kind? with
  | some owner => exact keepsTo_perform howner kind fun heq => h (heq ▸ howner)
  | none =>
    cases call with
    | compartment name =>
      exact .bind (.bind (.modifyGet fun heap => ⟨by cases kind <;> rfl, fun _ => rfl⟩) fun _ =>
        .bind (.modify fun heap => ⟨refl_of _ heap.graph, fun _ => rfl⟩) fun _ => .pure _)
        fun _ => .pure _
    | _ => cases howner

end Construction

/-! Calls that fail. -/

/-- There are as many things of each kind as before. -/
def Heap.SamePopulation (heap next : Heap) : Prop :=
  ∀ kind, next.graph.population kind = heap.graph.population kind

instance : IsPreorder Heap Heap.SamePopulation where
  refl _ _ := rfl
  trans _ _ _ h h' kind := (h' kind).trans (h kind)

namespace Builder

open Heap (SamePopulation)

private theorem reverts_edit {kind : Kind} (ref : Ref kind) {change : Graph → Graph} :
    Reverts SamePopulation (edit ref change) :=
  .bind .get fun _ => .ite .modify (Respects.throw _).reverts

private theorem respects_editXml (node : XmlId) (change : XmlCell → XmlCell) :
    Respects SamePopulation (editXml node change) := by
  refine .bind .get fun _ => .ite (.modify fun heap kind => ?_) (.throw _)
  cases kind with
  | xml => exact Array.size_modify
  | _ => rfl

private theorem reverts_newDependent (compartment : CompartmentId) (base : StringId)
    (start length : Nat) : Reverts SamePopulation (newDependent compartment base start length) := by
  have hchars : Respects SamePopulation (lookUp fun g => g.linearChars base) := by
    refine .bind .get fun heap => ?_
    split
    · exact .pure _
    · exact .throw _
  refine .bind hchars fun chars => .check ?_
  split
  · exact .modifyGet
  · exact (Respects.throw _).reverts

private theorem reverts_setSlot (object : ObjectId) (index : Nat) (value : Value) :
    Reverts SamePopulation (setSlot object index value) := by
  refine .bind .get fun heap => .bind (.need _) fun cell =>
    .check (.bind (.allocate _ _) fun _ => ?_)
  split
  · exact reverts_edit object
  · exact (Respects.throw _).reverts

end Builder

/-- A call that fails adds nothing. -/
theorem Construction.reverts_perform (call : Construction) :
    Reverts Heap.SamePopulation call.perform := by
  have hmade : ∀ {kind : Kind} {part : Builder (Ref kind)}, Reverts Heap.SamePopulation part →
      Reverts Heap.SamePopulation (made part) :=
    fun hpart => hpart.andThen fun _ _ => trivial
  have hdone : ∀ {part : Builder Unit}, Reverts Heap.SamePopulation part →
      Reverts Heap.SamePopulation (done part) := fun hpart => hpart.andThen fun _ _ => trivial
  cases call with
  | compartment name =>
    refine .andThen (.andThen .modifyGet fun _ _ => ?_) fun _ _ => ?_
    · exact trivial
    · exact trivial
  | atom chars =>
    refine hmade (.bind .get fun heap => ?_)
    split
    · exact (Respects.pure _).reverts
    · exact Reverts.modifyGet.andThen fun _ _ => trivial
  | dependent c base start length =>
    exact hmade (Builder.reverts_newDependent c base start length)
  | concat c left right =>
    exact hmade (.bind .get fun _ => .bind (.need _) fun _ => .bind .get fun _ =>
      .bind (.need _) fun _ => .check .modifyGet)
  | ownedBaseShape twin =>
    exact hmade (.bind .get fun _ => .bind (.need _) fun _ => .check .modifyGet)
  | object c type lineage fixed =>
    exact hmade (.bind (.allocate _ _) fun _ => .modifyGet)
  | slot owner index value => exact hdone (Builder.reverts_setSlot owner index value)
  | script cell =>
    refine hmade fun heap => ?_
    unfold Builder.newScript
    split <;> trivial
  | xmlKid node kid =>
    exact hdone (.bind (Builder.respects_editXml kid _) fun _ => Builder.reverts_edit node)
  | xmlAttr node attr =>
    exact hdone (.bind (Builder.respects_editXml attr _) fun _ => Builder.reverts_edit node)
  | _ => first | exact hmade .modifyGet | exact hdone (Builder.reverts_edit _)

end MarkPhase
