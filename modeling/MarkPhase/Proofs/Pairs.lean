import MarkPhase.Proofs.Outcomes

/-!
Two moves, side by side. From states that belong together they come to the same answer, or
stop at the same fault, and the states that they leave belong together again. What is known
of an answer is known of both. The two need not be made of the same pieces, as long as the
pieces of one correspond to those of the other.
-/

namespace MarkPhase

variable {σ α β : Type}

/-- The same answer, of which `told` holds, or the same fault. -/
inductive Matched (R : σ → σ → Prop) (told : α → Prop) :
    EStateM.Result Fault σ α → EStateM.Result Fault σ α → Prop
  | ok {a : α} {s u : σ} (htold : told a) (hstates : R s u) : Matched R told (.ok a s) (.ok a u)
  | error {fault : Fault} {s u : σ} (hstates : R s u) :
      Matched R told (.error fault s) (.error fault u)

/-- From states that belong together the moves come to matching ends. -/
def Coupled (R : σ → σ → Prop) (told : α → Prop) (m n : EStateM Fault σ α) : Prop :=
  ∀ ⦃s u : σ⦄, R s u → Matched R told (m s) (n u)

variable {R : σ → σ → Prop} {told told' : α → Prop} {asked : β → Prop}
variable {m n : EStateM Fault σ α} {f f' : α → EStateM Fault σ β} {s u : σ}

namespace Matched

theorem cases_ends (h : Matched R told (m s) (n u)) :
    (∃ a s' u', m s = .ok a s' ∧ n u = .ok a u' ∧ told a ∧ R s' u') ∨
    ∃ fault s' u', m s = .error fault s' ∧ n u = .error fault u' ∧ R s' u' := by
  generalize hm : m s = r at h
  generalize hn : n u = r' at h
  cases h with
  | ok htold hstates => exact Or.inl ⟨_, _, _, rfl, rfl, htold, hstates⟩
  | error hstates => exact Or.inr ⟨_, _, _, rfl, rfl, hstates⟩

theorem exists_ok {a : α} {s' : σ} (h : Matched R told (m s) (n u)) (hm : m s = .ok a s') :
    ∃ u', n u = .ok a u' ∧ told a ∧ R s' u' := by
  rw [hm] at h
  generalize hn : n u = r at h
  cases h with
  | ok htold hstates => exact ⟨_, rfl, htold, hstates⟩

theorem mono (h : Matched R told (m s) (n u)) (htold : ∀ a, told a → told' a) :
    Matched R told' (m s) (n u) := by
  obtain ⟨a, s', u', hm, hn, ha, hstates⟩ | ⟨fault, s', u', hm, hn, hstates⟩ := h.cases_ends
  · rw [hm, hn]
    exact .ok (htold a ha) hstates
  · rw [hm, hn]
    exact .error hstates

theorem bind (h : Matched R told (m s) (n u))
    (hnext : ∀ a s' u', told a → R s' u' → Matched R asked (f a s') (f' a u')) :
    Matched R asked ((m >>= f) s) ((n >>= f') u) := by
  change Matched R asked (EStateM.bind m f s) (EStateM.bind n f' u)
  unfold EStateM.bind
  obtain ⟨a, s', u', hm, hn, ha, hstates⟩ | ⟨fault, s', u', hm, hn, hstates⟩ := h.cases_ends
  · rw [hm, hn]
    exact hnext a s' u' ha hstates
  · rw [hm, hn]
    exact .error hstates

end Matched

namespace Coupled

theorem bind (h : Coupled R told m n) (hnext : ∀ a, told a → Coupled R asked (f a) (f' a)) :
    Coupled R asked (m >>= f) (n >>= f') :=
  fun _ _ hstates => (h hstates).bind fun a _ _ ha hstates' => hnext a ha hstates'

/-- What comes next does not have to know anything of the answer. -/
theorem seq (h : Coupled R (fun _ => True) m n) (hnext : ∀ a, Coupled R asked (f a) (f' a)) :
    Coupled R asked (m >>= f) (n >>= f') :=
  h.bind fun a _ => hnext a

theorem mono (h : Coupled R told m n) (htold : ∀ a, told a → told' a) : Coupled R told' m n :=
  fun _ _ hstates => (h hstates).mono htold

theorem pure {a : α} (ha : told a) : Coupled R told (pure a) (pure a) :=
  fun _ _ hstates => .ok ha hstates

theorem throw (fault : Fault) :
    Coupled R told (throw fault : EStateM Fault σ α) (throw fault) :=
  fun _ _ hstates => .error hstates

theorem need (found : Option α) :
    Coupled R (fun a => found = some a) (MarkPhase.need found) (MarkPhase.need found) := by
  cases found with
  | none => exact throw .outOfBounds
  | some a => exact pure rfl

theorem ite {c : Prop} [Decidable c] {m' n' : EStateM Fault σ α} (hthen : c → Coupled R told m n)
    (helse : ¬ c → Coupled R told m' n') :
    Coupled R told (if c then m else m') (if c then n else n') := by
  by_cases h : c
  · simpa only [if_pos h] using hthen h
  · simpa only [if_neg h] using helse h

/-- Moves behind a check that may fail. -/
theorem check {c : Prop} [Decidable c] {fault : Fault} (h : Coupled R told m n) :
    Coupled R told (if c then MonadExcept.throw fault >>= fun (_ : PUnit) => m else m)
      (if c then MonadExcept.throw fault >>= fun (_ : PUnit) => n else n) :=
  ite (fun _ => (throw fault).seq fun _ => h) fun _ => h

/-- Moves that read the same. -/
theorem of_need {found found' : Option α} {a a' : α} (h : found = some a) (h' : found' = some a')
    (hnext : Coupled R asked (f a) (f' a')) :
    Coupled R asked (MarkPhase.need found >>= f) (MarkPhase.need found' >>= f') := by
  subst h h'
  exact hnext

/-- What comes next may depend on the states, which still belong together. -/
theorem get {f f' : σ → EStateM Fault σ α}
    (hnext : ∀ s u, R s u → Coupled R told (f s) (f' u)) :
    Coupled R told (get >>= f) (get >>= f') :=
  fun s u hstates => hnext s u hstates hstates

theorem modify {change change' : σ → σ} (h : ∀ s u, R s u → R (change s) (change' u)) :
    Coupled R (fun _ => True) (modify change : EStateM Fault σ PUnit) (modify change') :=
  fun s u hstates => .ok trivial (h s u hstates)

theorem modifyGet {change change' : σ → α × σ}
    (h : ∀ s u, R s u → (change s).1 = (change' u).1 ∧ told (change s).1 ∧
      R (change s).2 (change' u).2) :
    Coupled R told (modifyGet change : EStateM Fault σ α) (modifyGet change') := by
  intro s u hstates
  obtain ⟨hanswer, htold, hnext⟩ := h s u hstates
  change Matched R told (.ok (change s).1 (change s).2) (.ok (change' u).1 (change' u).2)
  rw [← hanswer]
  exact .ok htold hnext

theorem forM {γ : Type} {visit visit' : γ → EStateM Fault σ PUnit} {xs : List γ}
    (h : ∀ x ∈ xs, Coupled R (fun _ => True) (visit x) (visit' x)) :
    Coupled R (fun _ => True) (xs.forM visit) (xs.forM visit') := by
  induction xs with
  | nil => exact pure trivial
  | cons x xs ih =>
    exact (h x (List.mem_cons_self ..)).bind fun _ _ =>
      ih fun y hy => h y (List.mem_cons_of_mem _ hy)

end Coupled

end MarkPhase
