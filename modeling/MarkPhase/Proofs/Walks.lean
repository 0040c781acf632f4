import MarkPhase.Proofs.Chronicles
import MarkPhase.Proofs.Frames

/-!
Walks over strings. A string is marked together with all that it is made of, before
anything else happens. In the middle of such a walk some strings are marked whose parts
have not been looked at; whatever may be found along unmarked strings is marked already or
lies below one of them.
-/

namespace MarkPhase

namespace Graph

/-- What is found from `root` along allowed things that have no mark. -/
inductive Opens (g : Graph) (filter : Option CompartmentId) (marks : MarkTable) (root : Thing) :
    Thing → Prop
  | root (hallowed : g.Allowed filter root) (hnew : marks.isMarked root = false) :
      Opens g filter marks root root
  | child {parent child : Thing} (hparent : Opens g filter marks root parent)
      (hchild : g.Child parent child) (hallowed : g.Allowed filter child)
      (hnew : marks.isMarked child = false) : Opens g filter marks root child

def IsRope (g : Graph) (id : StringId) : Prop :=
  ∃ string, g.string? id = some string ∧ string.isRope = true

/-- Both parts of a rope are ropes themselves. -/
def Forks (g : Graph) (rope : StringId) : Prop :=
  ∃ string left right, g.string? rope = some string ∧ string.parts? = some (left, right) ∧
    g.IsRope left ∧ g.IsRope right

/-- Some rope that a thing leads to forks. -/
def LeadsToFork (g : Graph) (root : Thing) : Prop :=
  ∃ rope : StringId, Relation.ReflTransGen g.Child root rope.thing ∧ g.Forks rope

namespace Opens

variable {g : Graph} {filter : Option CompartmentId} {marks : MarkTable} {root thing : Thing}

theorem allowed (h : g.Opens filter marks root thing) : g.Allowed filter thing := by
  cases h with
  | root hallowed _ => exact hallowed
  | child _ _ hallowed _ => exact hallowed

theorem unmarked (h : g.Opens filter marks root thing) : marks.isMarked thing = false := by
  cases h with
  | root _ hnew => exact hnew
  | child _ _ _ hnew => exact hnew

/-- Nothing is found from a thing that is not found itself. -/
theorem self (h : g.Opens filter marks root thing) : g.Opens filter marks root root := by
  induction h with
  | root hallowed hnew => exact .root hallowed hnew
  | child _ _ _ _ ih => exact ih

theorem reachable (h : g.Opens filter marks root thing) :
    Relation.ReflTransGen g.Child root thing := by
  induction h with
  | root _ _ => exact .refl
  | child _ hchild _ _ ih => exact ih.tail hchild

end Opens

end Graph

/-! What becomes of the stack and of the delayed things. -/

namespace Event

/-- The event is none of those about the stack. -/
def IsIdle : Event → Prop
  | .scanned _ => True
  | .tried _ _ => True
  | _ => False

end Event

namespace Chronicle

variable {ω : Type}

/-- Between the two states nothing has happened to the stack and to the delayed things. -/
structure Rests (c d : Chronicle ω) : Prop where
  stack : d.stack = c.stack
  delayed : d.delayed = c.delayed
  delays : d.delays = c.delays
  filter : d.context.compartment = c.context.compartment
  kept : ∀ event ∈ c.events, event ∈ d.events
  idle : ∀ event ∈ d.events, event ∈ c.events ∨ event.IsIdle

instance : IsPreorder (Chronicle ω) Rests where
  refl _ := ⟨rfl, rfl, rfl, rfl, fun _ => id, fun _ => Or.inl⟩
  trans _ _ _ h h' := {
    stack := h'.stack.trans h.stack
    delayed := h'.delayed.trans h.delayed
    delays := h'.delays.trans h.delays
    filter := h'.filter.trans h.filter
    kept := fun event hevent => h'.kept event (h.kept event hevent)
    idle := fun event hevent => (h'.idle event hevent).elim (h.idle event) Or.inr }

namespace Rests

variable {c d e : Chronicle ω}

theorem trans (h : c.Rests d) (h' : d.Rests e) : c.Rests e :=
  trans_of Rests h h'

theorem mem_iff (h : c.Rests d) {event : Event} (hevent : ¬ event.IsIdle) :
    event ∈ d.events ↔ event ∈ c.events :=
  ⟨fun hmem => (h.idle event hmem).resolve_right hevent, h.kept event⟩

end Rests

/-- The number of things of a kind that nobody has marked. -/
def unmarkedOf (c : Chronicle ω) (g : Graph) (kind : Kind) : Nat :=
  (Outline.start c.marks).unmarkedOf g kind

def unmarkedStrings (c : Chronicle ω) (g : Graph) : Nat :=
  c.unmarkedOf g .string

/-- What has been marked stays so. -/
def Grows (c d : Chronicle ω) : Prop :=
  ∀ thing, c.marks.isMarked thing = true → d.marks.isMarked thing = true

namespace Grows

variable {c d : Chronicle ω}

private theorem outline (h : c.Grows d) (thing : Thing)
    (hmarked : (Outline.start c.marks).Marked thing) : (Outline.start d.marks).Marked thing :=
  h thing hmarked

theorem unmarkedOf_le (h : c.Grows d) (g : Graph) (kind : Kind) :
    d.unmarkedOf g kind ≤ c.unmarkedOf g kind :=
  Outline.unmarkedOf_mono h.outline g kind

theorem unmarkedOf_lt (h : c.Grows d) {g : Graph} {thing : Thing}
    (hthing : g.contains thing = true) (hnew : c.marks.isMarked thing = false)
    (hmarked : d.marks.isMarked thing = true) :
    d.unmarkedOf g thing.kind < c.unmarkedOf g thing.kind := by
  have hunmarked : ¬ (Outline.start c.marks).Marked thing := by
    change ¬ c.marks.isMarked thing = true
    rw [hnew]
    exact Bool.false_ne_true
  exact Outline.unmarkedOf_lt_of_new h.outline hthing hunmarked hmarked

theorem unmarkedStrings_le (h : c.Grows d) (g : Graph) :
    d.unmarkedStrings g ≤ c.unmarkedStrings g :=
  h.unmarkedOf_le g .string

theorem unmarkedStrings_lt (h : c.Grows d) {g : Graph} {id : StringId}
    (hid : g.contains id.thing = true) (hnew : c.marks.isMarked id.thing = false)
    (hmarked : d.marks.isMarked id.thing = true) : d.unmarkedStrings g < c.unmarkedStrings g := by
  have hfewer := h.unmarkedOf_lt hid hnew hmarked
  exact hfewer

end Grows

end Chronicle

/-- The answer to an attempt to shade a thing, with the marks after it. -/
inductive Shading (g : Graph) (filter : Option CompartmentId) (thing : Thing) (color : Color)
    (marks : MarkTable) : Bool → MarkTable → Prop
  | shaded (hallowed : g.Allowed filter thing) (hnew : marks.isMarked thing = false) :
      Shading g filter thing color marks true (marks.set thing (.marked color))
  | left (hmarked : g.Allowed filter thing → marks.isMarked thing = true) :
      Shading g filter thing color marks false marks

/-- A thing that is there is shaded if the marker may mark it and nobody has marked it, and
otherwise nothing happens. -/
theorem MarkM.yields_claim_of_contains {ω : Type} {g : Graph} {thing : Thing} {color : Color}
    {s : Marking ω} {post : Bool → Marking ω → Prop} {faults : Fault → Marking ω → Prop}
    (hthing : g.contains thing = true)
    (hset : g.Allowed s.context.compartment thing → s.marks.isMarked thing = false →
      post true { s with marks := s.marks.set thing (.marked color) })
    (hsame : (g.Allowed s.context.compartment thing → s.marks.isMarked thing = true) →
      post false s) : Yields (claim g thing color) s post faults := by
  obtain ⟨compartment, hcompartment⟩ := (g.contains_iff_exists thing).mp hthing
  have hallows : s.context.allows compartment = true ↔
      g.Allowed s.context.compartment thing := by
    constructor
    · exact fun hallowed => ⟨compartment, hcompartment, hallowed⟩
    · intro hallowed
      obtain ⟨other, hother, hallowed⟩ := hallowed
      obtain rfl := Option.some.inj (hother.symm.trans hcompartment)
      exact hallowed
  rw [claim, yields_bind, hcompartment, yields_need_some, yields_bind, yields_get]
  refine yields_ite (fun hallowed => ?_) fun hallowed => ?_
  · rw [yields_modifyGet]
    by_cases hmarked : s.marks.isMarked thing = true
    · rw [if_pos hmarked]
      exact hsame fun _ => hmarked
    · rw [if_neg hmarked]
      exact hset (hallows.mp hallowed) (Bool.eq_false_of_not_eq_true hmarked)
  · exact hsame fun hgiven => absurd (hallows.mpr hgiven) hallowed

namespace ChronM

variable {ω : Type} {g : Graph} {c : Chronicle ω}

theorem yields_noteScan (thing : Thing) :
    Yields (noteScan thing) c (fun _ d => c.Rests d ∧ d.marks = c.marks) fun _ _ => False := by
  rw [noteScan, yields_bind, yields_sight, yields_bind, yields_tell, yields_quietly,
    MarkM.noteScan, yields_modify]
  refine ⟨⟨rfl, rfl, rfl, rfl, fun event => List.mem_cons_of_mem _, fun event hevent => ?_⟩, rfl⟩
  rcases List.mem_cons.mp hevent with rfl | hold
  · exact Or.inr trivial
  · exact Or.inl hold

theorem yields_attempt (parent : Option Thing) {thing : Thing} (hthing : g.contains thing = true)
    (color : Color) :
    Yields (attempt g parent thing color) c (fun claimed d => c.Rests d ∧
      Shading g c.context.compartment thing color c.marks claimed d.marks) fun _ _ => False := by
  have hrests : ∀ marks, c.Rests { c with events := .tried parent thing :: c.events, marks } := by
    refine fun marks => ⟨rfl, rfl, rfl, rfl, fun event => List.mem_cons_of_mem _, ?_⟩
    intro event hevent
    rcases List.mem_cons.mp hevent with rfl | hold
    · exact Or.inr trivial
    · exact Or.inl hold
  rw [attempt, yields_bind, yields_tell, yields_quietly]
  exact MarkM.yields_claim_of_contains hthing
    (fun hallowed hnew => ⟨hrests _, .shaded hallowed hnew⟩)
    fun hmarked => ⟨hrests c.marks, .left hmarked⟩

end ChronM

/-! The marks in the middle of a walk. -/

variable {ω : Type}

/-- What is known of the marks in the middle of a walk from `root` that began in `s`. The
things that are awaited are marked, and only their children may have been left out. -/
structure Walk (g : Graph) (s : Marking ω) (root : Thing) (awaited : List Thing)
    (c : Chronicle ω) : Prop where
  filter : c.context.compartment = s.context.compartment
  marks : ∀ thing, c.marks.get thing = s.marks.get thing ∨
    (g.Opens s.context.compartment s.marks root thing ∧ thing.kind = .string ∧
      c.marks.get thing = .marked .black)
  rooted : g.Opens s.context.compartment s.marks root root → c.marks.isMarked root = true
  opens : ∀ thing ∈ awaited, g.Opens s.context.compartment s.marks root thing
  closed : ∀ parent child, g.Opens s.context.compartment s.marks root parent →
    c.marks.isMarked parent = true → parent ∉ awaited → g.Child parent child →
    g.Allowed s.context.compartment child → c.marks.isMarked child = true

namespace Walk

variable {g : Graph} {s : Marking ω} {root thing : Thing} {awaited others : List Thing}
variable {c d : Chronicle ω}

/-- Nothing is found from a thing that is marked or must not be looked at. -/
theorem nowhere (hfilter : c.context.compartment = s.context.compartment)
    (hmarks : c.marks = s.marks)
    (hnot : ∀ thing, ¬ g.Opens s.context.compartment s.marks root thing) :
    Walk g s root [] c where
  filter := hfilter
  marks thing := Or.inl (by rw [hmarks])
  rooted hopens := absurd hopens (hnot _)
  opens := nofun
  closed parent _ hopens := absurd hopens (hnot parent)

/-- A walk begins at a string that has just been shaded. -/
theorem start {id : StringId} (hfilter : c.context.compartment = s.context.compartment)
    (hmarks : c.marks = s.marks.set id.thing (.marked .black))
    (hopens : g.Opens s.context.compartment s.marks id.thing id.thing) :
    Walk g s id.thing [id.thing] c where
  filter := hfilter
  marks thing := by
    rw [hmarks, ThingTable.get_set]
    by_cases heq : id.thing = thing
    · subst heq
      exact Or.inr ⟨hopens, rfl, if_pos rfl⟩
    · exact Or.inl (if_neg heq)
  rooted _ := hmarks ▸ (ThingTable.isMarked_set _ _ _ _).mpr (Or.inl rfl)
  opens thing hthing := List.mem_singleton.mp hthing ▸ hopens
  closed parent child hparent hmarked hnot := by
    rw [hmarks, ThingTable.isMarked_set] at hmarked
    rcases hmarked with rfl | hmarked
    · exact absurd (List.mem_singleton_self _) hnot
    · exact absurd hmarked (Bool.eq_false_iff.mp hparent.unmarked)

theorem unmarked (h : Walk g s root awaited c) (hnew : c.marks.isMarked thing = false) :
    s.marks.isMarked thing = false := by
  rcases h.marks thing with hsame | ⟨-, -, hblack⟩
  · rwa [ThingTable.isMarked, ← hsame]
  · rw [ThingTable.isMarked, hblack] at hnew
    cases hnew

theorem of_marks (h : Walk g s root awaited c) (hmarks : d.marks = c.marks)
    (hfilter : d.context.compartment = c.context.compartment) : Walk g s root awaited d where
  filter := hfilter.trans h.filter
  marks := hmarks ▸ h.marks
  rooted := hmarks ▸ h.rooted
  opens := h.opens
  closed := hmarks ▸ h.closed

theorem perm (h : Walk g s root awaited c) (hperm : awaited.Perm others) :
    Walk g s root others c where
  filter := h.filter
  marks := h.marks
  rooted := h.rooted
  opens thing hthing := h.opens thing (hperm.mem_iff.mpr hthing)
  closed parent child hopens hmarked hnot :=
    h.closed parent child hopens hmarked fun hmem => hnot (hperm.mem_iff.mp hmem)

/-- A thing is no longer awaited once its children are marked. -/
theorem close (h : Walk g s root (thing :: awaited) c)
    (hchildren : ∀ child, g.Child thing child → g.Allowed s.context.compartment child →
      c.marks.isMarked child = true) : Walk g s root awaited c where
  filter := h.filter
  marks := h.marks
  rooted := h.rooted
  opens other hother := h.opens other (List.mem_cons_of_mem _ hother)
  closed parent child hopens hmarked hnot hchild hallowed := by
    by_cases heq : parent = thing
    · exact hchildren child (heq ▸ hchild) hallowed
    · exact h.closed parent child hopens hmarked (List.not_mem_cons_of_ne_of_not_mem heq hnot)
        hchild hallowed

/-- A string that has just been shaded is awaited. -/
theorem shade (h : Walk g s root awaited c) {id : StringId}
    (hopens : g.Opens s.context.compartment s.marks root id.thing)
    (hmarks : d.marks = c.marks.set id.thing (.marked .black))
    (hfilter : d.context.compartment = c.context.compartment) :
    Walk g s root (id.thing :: awaited) d where
  filter := hfilter.trans h.filter
  marks thing := by
    rw [hmarks, ThingTable.get_set]
    by_cases heq : id.thing = thing
    · subst heq
      exact Or.inr ⟨hopens, rfl, if_pos rfl⟩
    · rw [if_neg heq]
      exact h.marks thing
  rooted hroot := hmarks ▸ (ThingTable.isMarked_set _ _ _ _).mpr (Or.inr (h.rooted hroot))
  opens other hother := by
    rcases List.mem_cons.mp hother with rfl | hother
    · exact hopens
    · exact h.opens other hother
  closed parent child hparent hmarked hnot hchild hallowed := by
    obtain ⟨hne, hnot⟩ := not_or.mp (List.mem_cons.not.mp hnot)
    rw [hmarks, ThingTable.isMarked_set] at hmarked ⊢
    have hold := hmarked.resolve_left (Ne.symm hne)
    exact Or.inr (h.closed parent child hparent hold hnot hchild hallowed)

open ChronM

/-- The child of an awaited thing is shaded unless it was before. -/
theorem yields_attemptString (h : Walk g s root awaited c) (parent : Option Thing)
    (hthing : thing ∈ awaited) {part : StringId} (hchild : g.Child thing part.thing)
    (hpart : g.contains part.thing = true) :
    Yields (attemptString g parent part) c (fun claimed d => c.Rests d ∧ c.Grows d ∧
      (g.Allowed s.context.compartment part.thing → d.marks.isMarked part.thing = true) ∧
      ((claimed = true ∧ Walk g s root (part.thing :: awaited) d ∧
          d.unmarkedStrings g < c.unmarkedStrings g) ∨
        (claimed = false ∧ Walk g s root awaited d))) fun _ _ => False := by
  refine (yields_attempt parent hpart .black).imp fun claimed d hend => ?_
  obtain ⟨hrests, hshading⟩ := hend
  rw [h.filter] at hshading
  generalize hafter : d.marks = after at hshading
  cases hshading with
  | shaded hallowed hnew =>
    have hmarked : d.marks.isMarked part.thing = true :=
      hafter ▸ (ThingTable.isMarked_set _ _ _ _).mpr (Or.inl rfl)
    have hgrows : c.Grows d := fun other hother =>
      hafter ▸ (ThingTable.isMarked_set _ _ _ _).mpr (Or.inr hother)
    have hopens := (h.opens thing hthing).child hchild hallowed (h.unmarked hnew)
    exact ⟨hrests, hgrows, fun _ => hafter ▸ hmarked, Or.inl ⟨rfl,
      h.shade hopens hafter hrests.filter, hgrows.unmarkedStrings_lt hpart hnew hmarked⟩⟩
  | left hmarked =>
    exact ⟨hrests, fun other hother => hafter ▸ hother, fun hallowed => hafter ▸ hmarked hallowed,
      Or.inr ⟨rfl, h.of_marks hafter hrests.filter⟩⟩

variable (hsound : g.Sound)

include hsound

/-- A linear string and the bases below it are awaited no longer. -/
theorem yields_scanLinear (steps : Nat) {id : StringId}
    (h : Walk g s root (id.thing :: awaited) c)
    (hlinear : ∃ string, g.string? id = some string ∧ string.isRope = false)
    (hsteps : c.unmarkedStrings g < steps) :
    Yields (scanLinear g steps id) c (fun _ d => c.Rests d ∧ c.Grows d ∧ Walk g s root awaited d)
      fun _ _ => False := by
  induction steps generalizing id c with
  | zero => exact absurd hsteps (Nat.not_lt_zero _)
  | succ steps ih =>
    obtain ⟨string, hid, hrope⟩ := hlinear
    have hchildren : ∀ child, g.Child id.thing child ↔ child ∈ refThings string.base? := by
      intro child
      rw [hsound.child_string hid, StringCell.references_of_linear hrope]
    rw [scanLinear, yields_bind]
    refine (yields_noteScan id.thing).imp fun _ c₁ hend => ?_
    obtain ⟨hrests₁, hmarks₁⟩ := hend
    have h₁ := h.of_marks hmarks₁ hrests₁.filter
    have hgrows₁ : c.Grows c₁ := fun other hother => hmarks₁ ▸ hother
    rw [yields_bind, hid, yields_need_some]
    cases hbase : string.base? with
    | none =>
      refine ⟨hrests₁, hgrows₁, h₁.close fun child hchild => ?_⟩
      rw [hchildren, hbase] at hchild
      exact absurd hchild List.not_mem_nil
    | some base =>
      obtain ⟨below, hbelow, hbelowRope⟩ := (hsound.string hid).2 base hbase
      have hbaseChild : g.Child id.thing base.thing := (hchildren _).mpr (by simp [hbase])
      have honly : ∀ child, g.Child id.thing child → child = base.thing := by
        intro child hchild
        rw [hchildren, hbase] at hchild
        exact List.mem_singleton.mp hchild
      rw [yields_bind, hbelow, yields_need_some, hbelowRope, if_neg Bool.false_ne_true, yields_bind]
      refine (h₁.yields_attemptString (some id.thing) (List.mem_cons_self ..) hbaseChild
        (Graph.contains_of_getElem? rfl hbelow)).imp fun claimed c₂ hend => ?_
      obtain ⟨hrests₂, hgrows₂, hmarked, hcases⟩ := hend
      -- The base is the only child, so nothing is awaited of the string from here on.
      have hdone : ∀ child, g.Child id.thing child → g.Allowed s.context.compartment child →
          c₂.marks.isMarked child = true := by
        intro child hchild hallowed
        rw [honly child hchild] at hallowed ⊢
        exact hmarked hallowed
      have hrests := hrests₁.trans hrests₂
      have hgrows : c.Grows c₂ := fun other hother => hgrows₂ other (hgrows₁ other hother)
      rcases hcases with ⟨rfl, h₂, hfewer⟩ | ⟨rfl, h₂⟩
      · rw [if_pos rfl]
        have hle := hgrows₁.unmarkedStrings_le g
        have hopen : Walk g s root (base.thing :: awaited) c₂ :=
          (h₂.perm (.swap ..)).close hdone
        refine (ih hopen ⟨below, hbelow, hbelowRope⟩ (by omega)).imp fun _ d hend => ?_
        obtain ⟨hrests₃, hgrows₃, h₃⟩ := hend
        exact ⟨hrests.trans hrests₃, fun other hother => hgrows₃ other (hgrows other hother), h₃⟩
      · rw [if_neg Bool.false_ne_true]
        exact ⟨hrests, hgrows, h₂.close hdone⟩

/-- A part of a rope is scanned on the spot, or it is a rope and handed back. -/
theorem yields_enterPart (h : Walk g s root awaited c) (parent : Option Thing)
    (hthing : thing ∈ awaited) {part : StringId} (hchild : g.Child thing part.thing)
    (hpart : g.contains part.thing = true) :
    Yields (enterPart g parent part) c (fun found d => c.Rests d ∧ c.Grows d ∧
      (g.Allowed s.context.compartment part.thing → d.marks.isMarked part.thing = true) ∧
      (∀ next, found = some next → next = part ∧ g.IsRope part) ∧
      Walk g s root (refThings found ++ awaited) d ∧
      d.unmarkedStrings g + (refThings found).length ≤ c.unmarkedStrings g) fun _ _ => False := by
  obtain ⟨string, hid⟩ := Graph.exists_string hpart
  rw [enterPart, yields_bind]
  refine (h.yields_attemptString parent hthing hchild hpart).imp fun claimed c₁ hend => ?_
  obtain ⟨hrests₁, hgrows₁, hmarked, ⟨rfl, h₁, hfewer⟩ | ⟨rfl, h₁⟩⟩ := hend
  · rw [if_pos rfl, yields_bind, hid, yields_need_some]
    refine yields_ite (fun hrope => ?_) fun hrope => ?_
    · refine ⟨hrests₁, hgrows₁, hmarked, ?_, h₁, hfewer⟩
      rintro next ⟨rfl⟩
      exact ⟨rfl, string, hid, hrope⟩
    · rw [yields_bind]
      have hlinear : string.isRope = false := Bool.eq_false_of_not_eq_true hrope
      have hsteps : c₁.unmarkedStrings g < g.strings.size + 1 :=
        Nat.lt_succ_of_le ((Outline.start c₁.marks).unmarkedOf_le g .string)
      refine (h₁.yields_scanLinear hsound _ ⟨string, hid, hlinear⟩ hsteps).imp ?_
      intro _ d hend
      obtain ⟨hrests₂, hgrows₂, h₂⟩ := hend
      have hgrows : c.Grows d := fun other hother => hgrows₂ other (hgrows₁ other hother)
      exact ⟨hrests₁.trans hrests₂, hgrows, fun hallowed => hgrows₂ _ (hmarked hallowed), nofun, h₂,
        hgrows.unmarkedStrings_le g⟩
  · rw [if_neg Bool.false_ne_true]
    exact ⟨hrests₁, hgrows₁, hmarked, nofun, h₁, hgrows₁.unmarkedStrings_le g⟩

end Walk

end MarkPhase
