import Mathlib.Order.Defs.Unbundled
import MarkPhase.Proofs.Outcomes

/-!
What a move leaves alone. Wherever a move stops, at its end or at a fault, the state that
it has reached is related to the one that it started from. For a relation that is
reflexive and transitive this may be shown of one piece of a move after the other. What
takes several pieces to do may be left half done at a fault, so of some relations only the
end of a move is asked.
-/

namespace MarkPhase

variable {σ α β : Type}

/-- Every state in which the move may stop is related to the state before it. -/
def Respects (R : σ → σ → Prop) (m : EStateM Fault σ α) : Prop :=
  ∀ s, Yields m s (fun _ => R s) (fun _ => R s)

namespace Respects

variable {R : σ → σ → Prop} [IsPreorder σ R] {m : EStateM Fault σ α} {f : α → EStateM Fault σ β}

theorem pure (a : α) : Respects R (pure a : EStateM Fault σ α) :=
  fun s => refl_of R s

theorem throw (fault : Fault) : Respects R (throw fault : EStateM Fault σ α) :=
  fun s => refl_of R s

theorem get : Respects R (get : EStateM Fault σ σ) :=
  fun s => refl_of R s

/-- A move that starts from a related state. -/
theorem after (hm : Respects R m) {s t : σ} (h : R s t) :
    Yields m t (fun _ => R s) (fun _ => R s) :=
  (hm t).mono (fun _ _ => trans_of R h) fun _ _ => trans_of R h

theorem bind (hm : Respects R m) (hf : ∀ a, Respects R (f a)) : Respects R (m >>= f) := by
  intro s
  rw [yields_bind]
  exact (hm s).mono (fun a _ ht => (hf a).after ht) fun _ _ => id

theorem need (found : Option α) : Respects R (MarkPhase.need found : EStateM Fault σ α) := by
  cases found with
  | none => exact throw .outOfBounds
  | some a => exact pure a

theorem allocate (count size : Nat) :
    Respects R (MarkPhase.allocate count size : EStateM Fault σ Unit) :=
  fun s => yields_allocate (fun _ => refl_of R s) fun _ _ => refl_of R s

/-- What is done with what is found. -/
theorem needed {found : Option α} (hf : ∀ a, found = some a → Respects R (f a)) :
    Respects R (MarkPhase.need found >>= f) := by
  cases found with
  | none => exact throw .outOfBounds
  | some a => exact hf a rfl

theorem forM {visit : α → EStateM Fault σ PUnit} {xs : List α}
    (hvisit : ∀ x ∈ xs, Respects R (visit x)) : Respects R (xs.forM visit) := by
  induction xs with
  | nil => exact pure PUnit.unit
  | cons x xs ih =>
    exact bind (hvisit x (List.mem_cons_self ..)) fun _ =>
      ih fun y hy => hvisit y (List.mem_cons_of_mem _ hy)

end Respects

variable {R : σ → σ → Prop} {m : EStateM Fault σ α}

theorem Respects.ite {c : Prop} [Decidable c] {n : EStateM Fault σ α} (hthen : Respects R m)
    (helse : Respects R n) : Respects R (if c then m else n) :=
  fun s => yields_ite (fun _ => hthen s) fun _ => helse s

/-- A move behind a check that may fail. -/
theorem Respects.check [IsPreorder σ R] {c : Prop} [Decidable c] {fault : Fault}
    (hm : Respects R m) :
    Respects R (if c then MonadExcept.throw fault >>= fun (_ : PUnit) => m else m) :=
  .ite (.bind (.throw _) fun _ => hm) hm

theorem Respects.modify {change : σ → σ} (h : ∀ s, R s (change s)) :
    Respects R (modify change : EStateM Fault σ PUnit) :=
  h

theorem Respects.modifyGet {change : σ → α × σ} (h : ∀ s, R s (change s).2) :
    Respects R (modifyGet change : EStateM Fault σ α) :=
  h

/-- If the move ends, the state is related to the one before it. -/
def Concludes (R : σ → σ → Prop) (m : EStateM Fault σ α) : Prop :=
  ∀ s, Yields m s (fun _ => R s) (fun _ _ => True)

theorem Respects.concludes (h : Respects R m) : Concludes R m :=
  fun s => (h s).mono (fun _ _ => id) fun _ _ _ => trivial

theorem Concludes.bind [IsPreorder σ R] {f : α → EStateM Fault σ β} (hm : Concludes R m)
    (hf : ∀ a, Concludes R (f a)) : Concludes R (m >>= f) := by
  intro s
  rw [yields_bind]
  exact (hm s).imp fun a t ht => (hf a t).imp fun _ _ => trans_of R ht

/-- If the move stops at a fault, the state is related to the one before it. -/
def Reverts (R : σ → σ → Prop) (m : EStateM Fault σ α) : Prop :=
  ∀ s, Yields m s (fun _ _ => True) (fun _ => R s)

theorem Respects.reverts (h : Respects R m) : Reverts R m :=
  fun s => (h s).mono (fun _ _ _ => trivial) fun _ _ => id

namespace Reverts

theorem bind [IsPreorder σ R] {f : α → EStateM Fault σ β} (hm : Respects R m)
    (hf : ∀ a, Reverts R (f a)) : Reverts R (m >>= f) := by
  intro s
  rw [yields_bind]
  exact (hm s).mono (fun a t ht => (hf a t).mono (fun _ _ => id) fun _ _ => trans_of R ht)
    fun _ _ => id

theorem ite {c : Prop} [Decidable c] {n : EStateM Fault σ α} (hm : Reverts R m)
    (hn : Reverts R n) : Reverts R (if c then m else n) :=
  fun s => yields_ite (fun _ => hm s) fun _ => hn s

/-- A move behind a check that may fail. -/
theorem check [IsPreorder σ R] {c : Prop} [Decidable c] {fault : Fault} (hm : Reverts R m) :
    Reverts R (if c then MonadExcept.throw fault >>= fun (_ : PUnit) => m else m) :=
  .ite (.bind (.throw _) fun _ => hm) hm

/-- What cannot fail may come after. -/
theorem andThen {f : α → EStateM Fault σ β} (hm : Reverts R m)
    (hf : ∀ a t, Yields (f a) t (fun _ _ => True) fun _ _ => False) : Reverts R (m >>= f) := by
  intro s
  rw [yields_bind]
  exact (hm s).imp fun a t _ => (hf a t).mono (fun _ _ => id) fun _ _ => False.elim

theorem modify {change : σ → σ} : Reverts R (modify change : EStateM Fault σ PUnit) :=
  fun _ => trivial

theorem modifyGet {change : σ → α × σ} : Reverts R (modifyGet change : EStateM Fault σ α) :=
  fun _ => trivial

end Reverts

end MarkPhase
