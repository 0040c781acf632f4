import MarkPhase.Proofs.Frames
import MarkPhase.Proofs.Loops

/-!
The changes that a marker makes to its state. Each elementary move changes little, so a
preorder that admits these changes one by one relates the states before and after whole
sessions. Marking a thing is admitted separately, and the scan of a script may be taken
together with its marking.
-/

namespace MarkPhase

variable {ω : Type}

/-- The shade that a marker of the given colour gives to a thing. -/
def Color.shade (color : Color) (thing : Thing) : Shade :=
  .marked (if thing.kind = .string then .black else color)

/-- The relation admits all that a marker does to its state besides marking things and
keeping filenames. No script is ever delayed, and what is delayed is listed tidily. -/
structure Marking.Admits (R : Marking ω → Marking ω → Prop) : Prop where
  aside : ∀ (s : Marking ω) (journal : Array Record) (label : Label) (scanned : KindCounts)
    (slices : Nat) (watcher : Option (Watcher ω)),
    R s { s with journal, scanned, slices, watcher, context := { s.context with label } }
  delayed : ∀ (s : Marking ω) (delayed : DelayedList), (s.delayed.Tidy → delayed.Tidy) →
    (∀ thing ∈ delayed.things, thing ∈ s.delayed.things ∨ thing.kind ≠ .script) →
    R s { s with delayed }
  delays : ∀ s : Marking ω, R s { s with delays := s.delays + 1 }
  extend : ∀ (s : Marking ω) (entry : StackEntry), s.stack.admits = .ok true →
    R s { s with stack := (s.stack.extend entry).notePeak }
  pop : ∀ s : Marking ω, R s { s with stack := s.stack.pop.2 }

/-- A relation that reads no more of a state than its marks, the filenames that it keeps and
its colour admits all that leaves these alone. -/
theorem Marking.Admits.of_eq {R : Marking ω → Marking ω → Prop}
    (h : ∀ {s t : Marking ω}, t.marks = s.marks → t.filenames = s.filenames →
      t.color = s.color → R s t) : Admits R where
  aside _ _ _ _ _ _ := h rfl rfl rfl
  delayed _ _ _ _ := h rfl rfl rfl
  delays _ := h rfl rfl rfl
  extend _ _ _ := h rfl rfl rfl
  pop _ := h rfl rfl rfl

theorem StackEntry.owner_kind (entry : StackEntry) : entry.owner.kind ≠ .script := by
  cases entry <;> exact nofun

namespace MarkM

/-- Where nothing is claimed nothing happens, and what is claimed has not been marked. -/
theorem yields_claim_of (g : Graph) {thing : Thing} {color : Color} {s : Marking ω}
    {post : Bool → Marking ω → Prop} {faults : Fault → Marking ω → Prop} (hsame : post false s)
    (hfault : ∀ fault, faults fault s)
    (hset : ¬ s.marks.isMarked thing = true →
      post true { s with marks := s.marks.set thing (.marked color) }) :
    Yields (claim g thing color) s post faults := by
  unfold claim
  rw [yields_bind]
  cases g.compartmentOf? thing with
  | none => exact hfault _
  | some compartment =>
    rw [yields_need_some, yields_bind, yields_get]
    refine yields_ite (fun _ => ?_) fun _ => hsame
    rw [yields_modifyGet]
    by_cases hmarked : s.marks.isMarked thing = true
    · rw [if_pos hmarked]
      exact hsame
    · rw [if_neg hmarked]
      exact hset hmarked

end MarkM

namespace Marking.Admits

open MarkM

variable {R : Marking ω → Marking ω → Prop}

theorem respects_shade [IsPreorder (Marking ω) R]
    (hset : ∀ (s : Marking ω) (thing : Thing), thing.kind ≠ .script →
      ¬ s.marks.isMarked thing = true →
      R s { s with marks := s.marks.set thing (s.color.shade thing) }) (id : BaseShapeId) :
    Respects R (do
      let color ← color
      modify fun s =>
        if s.marks.isMarked id.thing then s
        else { s with marks := s.marks.set id.thing (.marked color) } : MarkM ω Unit) := by
  intro s
  rw [color, yields_bind, yields_bind, yields_get, yields_pure, yields_modify]
  by_cases hmarked : s.marks.isMarked id.thing = true
  · rw [if_pos hmarked]
    exact refl_of R s
  · rw [if_neg hmarked]
    exact hset s id.thing nofun hmarked

variable (h : Admits R)

include h

theorem record (entry : Record) : Respects R (record entry : MarkM ω Unit) :=
  .modify fun s => h.aside s _ s.context.label s.scanned s.slices s.watcher

theorem popDelayed : Respects R (modifyGet fun s =>
    (s.delayed.pop.1, { s with delayed := s.delayed.pop.2 }) : MarkM ω (Option Thing)) :=
  .modifyGet fun s => h.delayed s _ (fun htidy => htidy.pop) fun thing hthing =>
    Or.inl (s.delayed.pop_subset.2 thing hthing)

variable [IsPreorder (Marking ω) R]

theorem delay (entry : StackEntry) : Respects R (delay entry : MarkM ω Unit) := by
  refine .bind .get fun _ => .ite
    (.bind (.modifyGet fun s => h.delayed s _ (fun htidy => (htidy.add _).1) fun thing hthing => ?_)
      fun _ => .ite (.bind (.modify h.delays) fun _ => h.record _) (.pure _))
    (.throw _)
  rcases s.delayed.add_subset entry.owner thing hthing with hold | rfl
  · exact Or.inl hold
  · exact Or.inr entry.owner_kind

theorem isRefused (entry : StackEntry) : Respects R (isRefused entry : MarkM ω Bool) := by
  refine .modifyGet fun s => ?_
  cases hwatcher : s.watcher with
  | none => exact refl_of R s
  | some watcher => exact h.aside s s.journal s.context.label s.scanned s.slices _

theorem pushEntry (entry : StackEntry) : Respects R (pushEntry entry : MarkM ω Unit) := by
  refine .bind (h.isRefused entry) fun refused => .ite (h.delay entry) fun s => ?_
  rw [yields_bind, yields_get]
  split
  · rename_i hadmits
    exact h.extend s entry hadmits
  · exact h.delay entry s
  · exact refl_of R s

section Good

variable (g : Graph) {names : String → Prop} {good : ∀ {α : Type}, MarkM ω α → Prop}

/-- Between units of work little happens besides taking up delayed things. -/
theorem sustained (hgood : ∀ {α : Type} {m : MarkM ω α}, Respects R m → good m)
    (hinherited : Inherited g names good) (hresume : good (resumeDelayed g)) :
    Sustained g names good where
  toInherited := hinherited
  record entry := hgood (h.record entry)
  resumeDelayed := hresume
  countSlice := hgood (.modify fun s =>
    h.aside s s.journal s.context.label s.scanned _ s.watcher)
  agenda := hgood (.bind .get fun _ => .pure _)

variable (hset : ∀ (s : Marking ω) (thing : Thing), thing.kind ≠ .script →
  ¬ s.marks.isMarked thing = true →
  R s { s with marks := s.marks.set thing (s.color.shade thing) })
variable (hgood : ∀ {α : Type} {m : MarkM ω α}, Respects R m → good m)
variable (hbind : ∀ {α β : Type} {m : MarkM ω α} {f : α → MarkM ω β}, good m → (∀ a, good (f a)) →
  good (m >>= f))

include hset hgood hbind

/-- Every move is good if the admitted changes are, if good moves may be put together, and if
it is good to keep the filenames in question and to mark a script and to scan it. -/
theorem inherited (hnames : ∀ (s : Marking ω) (name : String), names name →
      R s { s with filenames := s.filenames.mark name })
    (hscript : ∀ id : ScriptId,
      (∀ visits, KeepsOnly names visits → good (follow g (pushPlain g) visits)) →
      good (pushScript g id)) : Inherited g names good where
  pure a := hgood (.pure a)
  throw fault := hgood (.throw fault)
  bind := hbind
  claim id hkind := hgood fun s => by
    rw [color, yields_bind, yields_bind, yields_get, yields_pure]
    have hshade : s.color.shade id.thing = .marked s.color :=
      congrArg Shade.marked (if_neg hkind.1)
    exact yields_claim_of g (refl_of R s) (fun _ => refl_of R s) fun hnew =>
      hshade ▸ hset s id.thing hkind.2 hnew
  claimString id := hgood fun s => yields_claim_of g (refl_of R s) (fun _ => refl_of R s)
    (hset s id.thing nofun)
  script := hscript
  shade id := hgood (respects_shade hset id)
  noteScan _ := hgood (.modify fun s => h.aside s s.journal s.context.label _ s.slices _)
  setLabel label := hgood (.modify fun s => h.aside s s.journal label s.scanned s.slices s.watcher)
  keepFilename name hname := hgood (.modify fun s => hnames s name hname)
  pushEntry entry := hgood (h.pushEntry entry)
  popEntry := hgood (.modifyGet h.pop)
  depth := hgood (.bind .get fun _ => .pure _)
  filter := hgood (.bind .get fun _ => .pure _)

/-- Where it is good to keep any filename, it is good to take up a delayed thing. -/
theorem lasting (hnames : ∀ (s : Marking ω) (name : String),
      R s { s with filenames := s.filenames.mark name })
    (hscript : ∀ id : ScriptId, (∀ visits, good (follow g (pushPlain g) visits)) →
      good (pushScript g id)) : Lasting g good := by
  have hinherited : Inherited g (fun _ => True) good :=
    h.inherited g hset hgood hbind (fun s name _ => hnames s name)
      fun id hfollow => hscript id fun visits => hfollow visits fun _ _ => trivial
  exact h.sustained g hgood hinherited
    (hinherited.resumeDelayed (fun entry => hgood (h.record entry)) (hgood h.popDelayed))

end Good

/-- A relation that admits marking as well is kept wherever a session may stop. -/
theorem lasting_respects (g : Graph) (hset : ∀ (s : Marking ω) (thing : Thing),
      ¬ s.marks.isMarked thing = true →
      R s { s with marks := s.marks.set thing (s.color.shade thing) })
    (hnames : ∀ (s : Marking ω) (name : String),
      R s { s with filenames := s.filenames.mark name }) :
    Lasting g (fun m : MarkM ω _ => Respects R m) := by
  refine h.lasting g (fun s thing _ => hset s thing) id .bind hnames fun id hfollow => ?_
  have hscan : ∀ claimed : Bool, Respects R (do
      if claimed then
        noteScan id.thing
        follow g (pushPlain g) (scriptVisits g true id) : MarkM ω Unit) := fun _ =>
    .ite (.bind (.modify fun s => h.aside s s.journal s.context.label _ s.slices _)
      fun _ => hfollow _) (.pure _)
  intro s
  have hclaim : Yields (claim g id.thing s.color) s (fun _ => R s) fun _ => R s :=
    yields_claim_of g (refl_of R s) (fun _ => refl_of R s) (hset s id.thing)
  rw [pushScript, color, yields_bind, yields_bind, yields_get, yields_pure, yields_bind]
  exact hclaim.mono (fun claimed _ ht => (hscan claimed).after ht) fun _ _ ht => ht

end Marking.Admits

end MarkPhase
