import MarkPhase.Faults

/-!
What a move that may fail leads to. A move is described from one state at a time:
either it ends, with an answer and a state that the description admits, or it
stops at a fault that the description admits as well. Descriptions of moves made
one after the other are descriptions of the first move whose end is described by
the second.
-/

namespace MarkPhase

/-- From `s`, the move ends as `post` says or stops as `faults` says. -/
def Yields {σ α : Type} (m : EStateM Fault σ α) (s : σ) (post : α → σ → Prop)
    (faults : Fault → σ → Prop) : Prop :=
  match m s with
  | .ok a t => post a t
  | .error fault t => faults fault t

instance {σ α : Type} (m : EStateM Fault σ α) (s : σ) (post : α → σ → Prop)
    (faults : Fault → σ → Prop) [∀ a t, Decidable (post a t)]
    [∀ fault t, Decidable (faults fault t)] : Decidable (Yields m s post faults) :=
  match h : m s with
  | .ok a t => decidable_of_iff (post a t) (by simp only [Yields, h])
  | .error fault t => decidable_of_iff (faults fault t) (by simp only [Yields, h])

section Rules

variable {σ α β : Type} {m : EStateM Fault σ α} {f : α → EStateM Fault σ β} {s t : σ} {a : α}
variable {post post' : α → σ → Prop} {faults faults' : Fault → σ → Prop}

theorem Yields.mono (h : Yields m s post faults) (hpost : ∀ a t, post a t → post' a t)
    (hfaults : ∀ fault t, faults fault t → faults' fault t) : Yields m s post' faults' := by
  unfold Yields at h ⊢
  cases hm : m s with
  | ok a t => exact hpost a t (by simpa only [hm] using h)
  | error fault t => exact hfaults fault t (by simpa only [hm] using h)

theorem Yields.imp (h : Yields m s post faults) (hpost : ∀ a t, post a t → post' a t) :
    Yields m s post' faults :=
  h.mono hpost fun _ _ hf => hf

/-- Two descriptions of one move, taken together. -/
theorem Yields.and (h : Yields m s post faults) (h' : Yields m s post' faults') :
    Yields m s (fun a t => post a t ∧ post' a t)
      fun fault t => faults fault t ∧ faults' fault t := by
  unfold Yields at h h' ⊢
  cases hm : m s with
  | ok a t => exact ⟨by simpa only [hm] using h, by simpa only [hm] using h'⟩
  | error fault t => exact ⟨by simpa only [hm] using h, by simpa only [hm] using h'⟩

/-- What is known of every end is known of the end that was reached. -/
theorem Yields.of_ok (h : Yields m s post faults) (hm : m s = .ok a t) : post a t := by
  simpa only [Yields, hm] using h

theorem Yields.of_error {fault : Fault} (h : Yields m s post faults) (hm : m s = .error fault t) :
    faults fault t := by
  simpa only [Yields, hm] using h

theorem yields_of_eq_ok (hm : m s = .ok a t) : Yields m s post faults ↔ post a t := by
  simp only [Yields, hm]

/-- A move without admitted faults ends. -/
theorem Yields.exists_ok (h : Yields m s post faults) (hfaults : ∀ fault t, ¬ faults fault t) :
    ∃ a t, m s = .ok a t ∧ post a t := by
  cases hm : m s with
  | ok a t => exact ⟨a, t, rfl, h.of_ok hm⟩
  | error fault t => exact absurd (h.of_error hm) (hfaults fault t)

/-- A move that must not fail ends as it should. -/
theorem Yields.exists_post (h : Yields m s post fun _ _ => False) :
    ∃ a t, m s = .ok a t ∧ post a t :=
  h.exists_ok fun _ _ => id

/-- A move without admitted ends stops at a fault. -/
theorem Yields.exists_error (h : Yields m s post faults) (hpost : ∀ a t, ¬ post a t) :
    ∃ fault t, m s = .error fault t ∧ faults fault t := by
  cases hm : m s with
  | ok a t => exact absurd (h.of_ok hm) (hpost a t)
  | error fault t => exact ⟨fault, t, rfl, h.of_error hm⟩

/-- A move with one end and without admitted faults has this end. -/
theorem Yields.eq_ok (h : Yields m s (fun b u => b = a ∧ u = t) fun _ _ => False) :
    m s = .ok a t := by
  obtain ⟨b, u, hm, rfl, rfl⟩ := h.exists_post
  exact hm

/-- A move that asks for nothing but its effects ends if it does not fail. -/
theorem Yields.exists_end {n : EStateM Fault σ Unit}
    (h : Yields n s (fun _ _ => True) fun _ _ => False) : ∃ t, n s = .ok () t := by
  obtain ⟨_, t, hn, -⟩ := h.exists_post
  exact ⟨t, hn⟩

/-- A move that has only to stop at a certain fault does so. -/
theorem Yields.exists_stop {fault : Fault}
    (h : Yields m s (fun _ _ => False) fun other _ => other = fault) :
    ∃ t, m s = .error fault t := by
  obtain ⟨_, t, hm, rfl⟩ := h.exists_error fun _ _ => id
  exact ⟨t, hm⟩

/-- Of two moves, one after the other, the second stops at a certain fault. -/
theorem Yields.exists_fault {n : EStateM Fault σ β} {fault : Fault}
    (h : Yields m s (fun _ t => Yields n t (fun _ _ => False) fun other _ => other = fault)
      fun _ _ => False) : ∃ a t u, m s = .ok a t ∧ n t = .error fault u := by
  obtain ⟨a, t, hm, hfails⟩ := h.exists_post
  obtain ⟨u, hn⟩ := hfails.exists_stop
  exact ⟨a, t, u, hm, hn⟩

theorem map_eq_ok {f : α → β} (h : m s = .ok a t) : (f <$> m) s = .ok (f a) t := by
  change EStateM.map f m s = _
  simp only [EStateM.map, h]

/-- A move whose answer is thrown away ends where the move itself ends. -/
theorem exists_ok_of_map {f : α → β} {b : β} (h : (f <$> m) s = .ok b t) :
    ∃ a, m s = .ok a t := by
  change EStateM.map f m s = _ at h
  unfold EStateM.map at h
  cases hm : m s with
  | ok a u =>
    simp only [hm, EStateM.Result.ok.injEq] at h
    exact ⟨a, by rw [h.2]⟩
  | error fault u => simp only [hm, reduceCtorEq] at h

/-- Two moves, one after the other, end where the second ends. -/
theorem exists_ok_of_bind {b : β} {u : σ} (h : (m >>= f) s = .ok b u) :
    ∃ a t, m s = .ok a t ∧ f a t = .ok b u := by
  change EStateM.bind m f s = _ at h
  unfold EStateM.bind at h
  cases hm : m s with
  | ok a t =>
    simp only [hm] at h
    exact ⟨a, t, rfl, h⟩
  | error fault t => simp only [hm, reduceCtorEq] at h

/-- Two moves, one after the other, end as they should. -/
theorem Yields.exists_ends {n : EStateM Fault σ β} {post : α → σ → β → σ → Prop}
    (h : Yields m s (fun a t => Yields n t (post a t) fun _ _ => False) fun _ _ => False) :
    ∃ a t b u, m s = .ok a t ∧ n t = .ok b u ∧ post a t b u := by
  obtain ⟨a, t, hm, hends⟩ := h.exists_post
  obtain ⟨b, u, hn, hpost⟩ := hends.exists_post
  exact ⟨a, t, b, u, hm, hn, hpost⟩

/-- Of two moves, one after the other, the second gives a certain answer. -/
theorem Yields.exists_answer {n : EStateM Fault σ β} {b : β}
    (h : Yields m s (fun _ t => Yields n t (fun c _ => c = b) fun _ _ => False) fun _ _ => False) :
    ∃ a t u, m s = .ok a t ∧ n t = .ok b u := by
  obtain ⟨a, t, _, u, hm, hn, rfl⟩ := h.exists_ends
  exact ⟨a, t, u, hm, hn⟩

@[simp]
theorem yields_bind {post : β → σ → Prop} :
    Yields (m >>= f) s post faults ↔
      Yields m s (fun a t => Yields (f a) t post faults) faults := by
  change (match EStateM.bind m f s with | .ok a t => _ | .error fault t => _) ↔ _
  unfold EStateM.bind Yields
  cases m s <;> rfl

/-- What a move leads to may not depend on the moves before it. -/
theorem yields_after {post : β → σ → Prop}
    (h : ∀ a t, Yields (f a) t post fun _ _ => True) :
    Yields (m >>= f) s post fun _ _ => True := by
  rw [yields_bind]
  unfold Yields
  cases m s with
  | ok a t => exact h a t
  | error fault t => trivial

theorem yields_map {f : α → β} {post : β → σ → Prop} :
    Yields (f <$> m) s post faults ↔ Yields m s (fun a => post (f a)) faults := by
  rw [map_eq_pure_bind, yields_bind]
  exact Iff.rfl

@[simp]
theorem yields_pure : Yields (pure a) s post faults ↔ post a s :=
  Iff.rfl

@[simp]
theorem yields_throw {fault : Fault} :
    Yields (throw fault : EStateM Fault σ α) s post faults ↔ faults fault s :=
  Iff.rfl

@[simp]
theorem yields_get {post : σ → σ → Prop} :
    Yields (get : EStateM Fault σ σ) s post faults ↔ post s s :=
  Iff.rfl

@[simp]
theorem yields_modify {change : σ → σ} {post : PUnit → σ → Prop} :
    Yields (modify change : EStateM Fault σ PUnit) s post faults ↔ post ⟨⟩ (change s) :=
  Iff.rfl

@[simp]
theorem yields_modifyGet {change : σ → α × σ} :
    Yields (modifyGet change : EStateM Fault σ α) s post faults ↔
      post (change s).1 (change s).2 :=
  Iff.rfl

@[simp]
theorem yields_need_some :
    Yields (need (some a) : EStateM Fault σ α) s post faults ↔ post a s :=
  Iff.rfl

theorem yields_ite {c : Prop} [Decidable c] {n : EStateM Fault σ α}
    (hthen : c → Yields m s post faults) (helse : ¬ c → Yields n s post faults) :
    Yields (if c then m else n) s post faults := by
  by_cases h : c
  · simpa only [if_pos h] using hthen h
  · simpa only [if_neg h] using helse h

/-- A request for memory is met where it fits, and ends in its fault where it does not. -/
theorem yields_allocate {count size : Nat} {post : Unit → σ → Prop}
    (hfits : fitsMemory count size = true → post () s)
    (hfault : ∀ fault, allocationFault? count size = some fault → faults fault s) :
    Yields (allocate count size) s post faults := by
  unfold allocate
  split
  · rename_i hnone
    exact hfits (allocationFault?_eq_none.mp hnone)
  · rename_i fault hsome
    exact hfault fault hsome

theorem yields_forM_append {visit : α → EStateM Fault σ PUnit} {xs ys : List α}
    {post : PUnit → σ → Prop} :
    Yields ((xs ++ ys).forM visit) s post faults ↔
      Yields (xs.forM visit) s (fun _ t => Yields (ys.forM visit) t post faults) faults := by
  rw [← yields_bind, List.forM_eq_forM, List.forM_append]

end Rules

end MarkPhase
