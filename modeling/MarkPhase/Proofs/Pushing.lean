import MarkPhase.Proofs.Tracking

/-!
Pushing single things. A move covers some things if it leaves those of them marked
that the filter allows, and everything else that it marks on the way is scanned or
written down by the time it ends. Strings, shapes, base shapes and scripts are scanned
at once; the walks along them shade a thing with every step, so they end.
-/

namespace MarkPhase

variable {ω : Type} {S : Setting ω} {hand : List Duty} {waiting : List StringId} {o : Outline}
  {s : Marking ω} {faults : Fault → Marking ω → Prop}

/-- The thing is there, and belongs to the territory if the filter allows it. -/
def Terrain.Welcome (terrain : Terrain) (thing : Thing) : Prop :=
  terrain.graph.contains thing = true ∧
    (terrain.graph.Allowed terrain.filter thing → terrain.home thing)

/-- Those of the things that the filter allows are marked. -/
def Terrain.Reached (terrain : Terrain) (things : List Thing) (o : Outline) : Prop :=
  ∀ thing ∈ things, terrain.graph.Allowed terrain.filter thing → o.Marked thing

/-- From every tracked state the move marks the things and takes care of all the rest. -/
structure Setting.Covers (S : Setting ω) (move : MarkM ω Unit) (things : List Thing) : Prop where
  yields : ∀ {hand : List Duty} {o : Outline} {s : Marking ω}, S.Tracks hand [] o s →
    (∀ thing ∈ things, S.Welcome thing) →
    Yields move s (fun _ => S.Lands o hand [] (S.Reached things)) S.Overflows

namespace Terrain

variable {terrain : Terrain}

theorem welcome_child {parent child : Thing} (hparent : terrain.home parent)
    (hchild : terrain.graph.Child parent child) : terrain.Welcome child := by
  have hcontains := (terrain.home_allowed parent hparent).contains
  refine ⟨?_, terrain.home_child parent child hparent hchild⟩
  exact terrain.sound.contains_of_report ((terrain.sound.child_iff hcontains).mp hchild)

theorem Reached.of_run {things : List Thing} {o' : Outline} (h : terrain.Reached things o)
    (hrun : terrain.Run o o') : terrain.Reached things o' :=
  fun thing hthing hallowed => Outline.marked_of_run hrun (h thing hthing hallowed)

/-- A thing all of whose children are among the marked ones is done with. -/
theorem Reached.done {things : List Thing} (h : terrain.Reached things o) {thing : Thing}
    (hthing : ∀ child, terrain.graph.Child thing child → child ∈ things) :
    o.Done terrain thing :=
  fun child hchild hallowed => h child (hthing child hchild) hallowed

theorem Reached.nil : terrain.Reached [] o :=
  fun _ hmem => absurd hmem List.not_mem_nil

theorem Reached.append {things others : List Thing} (h : terrain.Reached things o)
    (hothers : terrain.Reached others o) : terrain.Reached (things ++ others) o := by
  intro thing hthing
  rcases List.mem_append.mp hthing with hthing | hthing
  · exact h thing hthing
  · exact hothers thing hthing

end Terrain

namespace Setting.Covers

variable {move next : MarkM ω Unit} {things others : List Thing}

theorem pure : S.Covers (pure ()) [] :=
  ⟨fun htracks _ => ⟨_, .refl, htracks, Terrain.Reached.nil⟩⟩

/-- What comes after the move starts from a state in which the things are marked. -/
theorem yields_then (h : S.Covers move things) (htracks : S.Tracks hand [] o s)
    (hwelcome : ∀ thing ∈ things, S.Welcome thing) {α : Type} {next : MarkM ω α}
    {post : α → Marking ω → Prop}
    (hnext : ∀ {o' : Outline} {t : Marking ω}, S.Run o o' → S.Tracks hand [] o' t →
      S.Reached things o' → Yields next t post S.Overflows) :
    Yields (move >>= fun _ => next) s post S.Overflows := by
  rw [yields_bind]
  apply (h.yields htracks hwelcome).imp
  intro _ t hend
  obtain ⟨o', hrun, htracks', hreached⟩ := hend
  exact hnext hrun htracks' hreached

theorem bind (h : S.Covers move things) (hnext : S.Covers next others) :
    S.Covers (move >>= fun _ => next) (things ++ others) := by
  refine ⟨fun htracks hwelcome => ?_⟩
  refine h.yields_then htracks (fun thing hthing =>
    hwelcome thing (List.mem_append_left _ hthing)) fun hrun htracks' hreached => ?_
  have hothers : ∀ thing ∈ others, S.Welcome thing :=
    fun thing hthing => hwelcome thing (List.mem_append_right _ hthing)
  apply (hnext.yields htracks' hothers).imp
  intro _ u hlands
  refine (hlands.imp fun o'' hrun' hreached' => ?_).head hrun
  exact (hreached.of_run hrun').append hreached'

theorem forM {α : Type} {visit : α → MarkM ω Unit} {of : α → List Thing} {xs : List α}
    (h : ∀ x ∈ xs, S.Covers (visit x) (of x)) : S.Covers (xs.forM visit) (xs.flatMap of) := by
  induction xs with
  | nil => exact pure
  | cons x xs ih =>
    rw [List.flatMap_cons]
    exact (h x (List.mem_cons_self ..)).bind (ih fun y hy => h y (List.mem_cons_of_mem _ hy))

theorem optional {kind : Kind} {push : Ref kind → MarkM ω Unit}
    (h : ∀ id, S.Covers (push id) [id.thing]) (ref : Option (Ref kind)) :
    S.Covers (MarkM.pushOptional push ref) (refThings ref) := by
  cases ref with
  | none => exact pure
  | some id => exact h id

end Setting.Covers

namespace MarkM

@[simp]
theorem yields_color {post : Color → Marking ω → Prop} :
    Yields color s post faults ↔ post s.color s :=
  Iff.rfl

end MarkM

/-! Things that wait on the stack. -/

namespace Setting

open MarkM

theorem Covers.of_color {move : Color → MarkM ω Unit} {things : List Thing}
    (h : ∀ color, S.Covers (move color) things) : S.Covers (color >>= move) things := by
  refine ⟨fun {hand o s} htracks hwelcome => ?_⟩
  rw [yields_bind, yields_color]
  exact (h s.color).yields htracks hwelcome

/-- A thing is shaded, and taken care of if nobody had marked it before. -/
theorem Covers.of_claim {thing : Thing} {color : Color} {next : MarkM ω Unit}
    (hnext : ∀ {hand : List Duty} {o : Outline} {s : Marking ω},
      S.Tracks (.fresh thing :: hand) [] o s → S.home thing → o.Marked thing →
      Yields next s (fun _ => S.Lands o hand [] fun _ => True) S.Overflows) :
    S.Covers (do if ← claim S.graph thing color then next) [thing] := by
  refine ⟨fun htracks hwelcome => ?_⟩
  obtain ⟨hcontains, hhome⟩ := hwelcome thing (List.mem_singleton_self thing)
  rw [yields_bind]
  apply (htracks.yields_claim _ hcontains).imp
  intro claimed t hend
  rcases hend with ⟨rfl, hallowed, hnew, rfl⟩ | ⟨rfl, hmarked, rfl⟩
  · rw [if_pos rfl]
    obtain ⟨o₁, hrun₁, h₁, hmarked⟩ := htracks.claimed color (hhome hallowed) hnew
    apply (hnext h₁ (hhome hallowed) hmarked).imp
    intro _ u hlands
    refine (hlands.imp fun o₂ hrun₂ _ other hother _ => ?_).head hrun₁
    rw [List.mem_singleton.mp hother]
    exact Outline.marked_of_run hrun₂ hmarked
  · rw [if_neg Bool.false_ne_true]
    refine ⟨_, .refl, htracks, fun other hother hallowed => ?_⟩
    rw [List.mem_singleton.mp hother] at hallowed ⊢
    exact hmarked hallowed

private theorem covers_record {entry : StackEntry} (hwhole : entry.isValues = false)
    (hrope : ∀ id, entry ≠ .rope id) :
    S.Covers (do if ← claim S.graph entry.owner (← color) then pushEntry entry) [entry.owner] := by
  refine .of_color fun color => .of_claim fun htracks _ hmarked => ?_
  refine htracks.yields_pushEntry_plain (.whole hwhole ?_) hmarked hrope
  cases entry with
  | rope id => exact absurd rfl (hrope id)
  | _ => trivial

theorem covers_pushObject (id : ObjectId) : S.Covers (pushObject S.graph id) [id.thing] :=
  covers_record (show (StackEntry.object id).isValues = false from rfl) (by simp)

theorem covers_pushTypeObject (id : TypeObjectId) :
    S.Covers (pushTypeObject S.graph id) [id.thing] :=
  covers_record (show (StackEntry.typeObject id).isValues = false from rfl) (by simp)

theorem covers_pushXml (id : XmlId) : S.Covers (pushXml S.graph id) [id.thing] :=
  covers_record (show (StackEntry.xml id).isValues = false from rfl) (by simp)

/-! Strings. -/

/-- A thing that is being scanned is done with. -/
theorem Tracks.close {thing : Thing} (h : S.Tracks (.scanning thing :: hand) waiting o s)
    (hdone : o.Done S.toTerrain thing) :
    S.Lands o hand waiting (fun o' => o'.load S.graph < o.load S.graph) s := by
  have hweight : (Duty.scanning thing).weight = 2 := rfl
  refine (h.discharge (.close hdone)).imp fun o' _ hload => ?_
  omega

/-- A linear string is scanned with the bases below it, and the stack stays as it is. -/
theorem Tracks.yields_scanLinear (steps : Nat) {id : StringId}
    (h : S.Tracks (.fresh id.thing :: hand) waiting o s) (hhome : S.home id.thing)
    (hlinear : ∃ string, S.graph.string? id = some string ∧ string.isRope = false)
    (hsteps : o.unmarkedOf S.graph .string < steps) :
    Yields (scanLinear S.graph steps id) s (fun _ t => t.stack = s.stack ∧
      S.Lands o hand waiting (fun _ => True) t) S.Overflows := by
  induction steps generalizing id o s with
  | zero => exact absurd hsteps (Nat.not_lt_zero _)
  | succ steps ih =>
    obtain ⟨string, hid, hrope⟩ := hlinear
    have hsound := S.sound.string hid
    have hchildren : ∀ child, S.graph.Child id.thing child → child ∈ refThings string.base? := by
      intro child hchild
      rwa [S.sound.child_string hid, StringCell.references_of_linear hrope] at hchild
    rw [scanLinear, yields_bind]
    apply h.yields_noteScan.imp
    intro _ t hend
    obtain ⟨hstack, o₁, hrun₁, h₁, -⟩ := hend
    rw [yields_bind, hid, yields_need_some]
    cases hbase : string.base? with
    | none =>
      rw [hbase] at hchildren
      have hclosed := h₁.close (Terrain.Reached.nil.done hchildren)
      exact ⟨hstack, (hclosed.imp fun _ _ _ => trivial).head hrun₁⟩
    | some base =>
      obtain ⟨below, hbelow, hbelowRope⟩ := hsound.2 base hbase
      have hwelcome : S.Welcome base.thing := Terrain.welcome_child hhome <| by
        rw [S.sound.child_string hid, StringCell.references_of_linear hrope, hbase]
        simp
      rw [hbase] at hchildren
      rw [yields_bind, hbelow, yields_need_some, hbelowRope, if_neg Bool.false_ne_true, yields_bind,
        claimString]
      apply (h₁.yields_claim _ hwelcome.1).imp
      intro claimed t' hend
      rcases hend with ⟨rfl, hallowed, hnew, rfl⟩ | ⟨rfl, hmarked, rfl⟩
      · rw [if_pos rfl]
        obtain ⟨o₂, hrun₂, h₂, hmarked⟩ := h₁.claimed .black (hwelcome.2 hallowed) hnew
        have hreached : S.Reached (refThings (some base)) o₂ := by
          simpa [Terrain.Reached, refThings] using fun _ => hmarked
        obtain ⟨o₃, hrun₃, h₃, -⟩ := (h₂.perm (.swap ..)).close (hreached.done hchildren)
        have hfewer := Outline.unmarkedOf_lt hrun₂ hwelcome.1 hnew hmarked
        have hle₁ := Outline.unmarkedOf_run hrun₁ S.graph .string
        have hle₃ := Outline.unmarkedOf_run hrun₃ S.graph .string
        change o₂.unmarkedOf S.graph .string < o₁.unmarkedOf S.graph .string at hfewer
        refine (ih h₃ (hwelcome.2 hallowed) ⟨below, hbelow, hbelowRope⟩ (by omega)).imp ?_
        intro _ u hend
        obtain ⟨hstack', hlands⟩ := hend
        exact ⟨hstack'.trans hstack, hlands.head ((hrun₁.trans hrun₂).trans hrun₃)⟩
      · rw [if_neg Bool.false_ne_true]
        have hreached : S.Reached (refThings (some base)) o₁ := by
          simpa [Terrain.Reached, refThings] using hmarked
        exact ⟨hstack, ((h₁.close (hreached.done hchildren)).imp fun _ _ _ => trivial).head hrun₁⟩

/-- The duty to scan a thing that was found, if one was found. -/
def Found {kind : Kind} (found : Option (Ref kind)) : List Duty :=
  (found.map fun id => Duty.fresh id.thing).toList

/-- The string is a rope of the territory. -/
def IsRope (S : Setting ω) (id : StringId) : Prop :=
  S.home id.thing ∧ ∃ string, S.graph.string? id = some string ∧ string.isRope = true

/-- A part of a rope is shaded, and scanned unless it is a rope itself. -/
theorem Tracks.yields_enterPart (h : S.Tracks hand waiting o s) {part : StringId}
    (hwelcome : S.Welcome part.thing) :
    Yields (enterPart S.graph part) s (fun found t => t.stack = s.stack ∧
      (∀ next, found = some next → S.IsRope next) ∧
      S.Lands o (Found found ++ hand) waiting (fun o' =>
        (S.graph.Allowed S.filter part.thing → o'.Marked part.thing) ∧
        (∀ next, found = some next → o'.Marked next.thing) ∧
        o'.unmarkedOf S.graph .string + (Found found).length ≤ o.unmarkedOf S.graph .string) t)
      S.Overflows := by
  obtain ⟨string, hid⟩ := Graph.exists_string hwelcome.1
  rw [enterPart, claimString, yields_bind]
  apply (h.yields_claim _ hwelcome.1).imp
  intro claimed t hend
  rcases hend with ⟨rfl, hallowed, hnew, rfl⟩ | ⟨rfl, hmarked, rfl⟩
  · obtain ⟨o₁, hrun₁, h₁, hmarked⟩ := h.claimed .black (hwelcome.2 hallowed) hnew
    have hfewer := Outline.unmarkedOf_lt hrun₁ hwelcome.1 hnew hmarked
    rw [if_pos rfl, yields_bind, hid, yields_need_some]
    refine yields_ite (fun hrope => ?_) fun hrope => ?_
    · refine ⟨rfl, ?_, o₁, hrun₁, h₁, fun _ => hmarked, ?_, hfewer⟩
      · rintro next ⟨rfl⟩
        exact ⟨hwelcome.2 hallowed, string, hid, hrope⟩
      · rintro next ⟨rfl⟩
        exact hmarked
    · rw [yields_bind]
      have hsteps : o₁.unmarkedOf S.graph .string < S.graph.strings.size + 1 :=
        Nat.lt_succ_of_le (o₁.unmarkedOf_le S.graph .string)
      refine (h₁.yields_scanLinear _ (hwelcome.2 hallowed)
        ⟨string, hid, by simpa using hrope⟩ hsteps).imp ?_
      intro _ u hend
      obtain ⟨hstack, o₂, hrun₂, h₂, -⟩ := hend
      refine ⟨hstack, nofun, o₂, hrun₁.trans hrun₂, h₂, fun _ => ?_, nofun, ?_⟩
      · exact Outline.marked_of_run hrun₂ hmarked
      · exact Outline.unmarkedOf_run (hrun₁.trans hrun₂) _ _
  · rw [if_neg Bool.false_ne_true]
    exact ⟨rfl, nofun, o, .refl, h, hmarked, nofun, Nat.le_refl _⟩

/-- Both parts of a rope have been entered, and the rope itself is done with. -/
private structure Entered (S : Setting ω) (hand : List Duty) (waiting : List StringId)
    (o : Outline) (s : Marking ω) (first last : Option StringId) (t : Marking ω) : Prop where
  stack : t.stack = s.stack
  first_rope : ∀ next, first = some next → S.IsRope next
  last_rope : ∀ next, last = some next → S.IsRope next
  lands : S.Lands o (Found first ++ (Found last ++ hand)) waiting (fun o' =>
    (∀ next, last = some next → o'.Marked next.thing) ∧
    o'.unmarkedOf S.graph .string + (Found first).length + (Found last).length ≤
      o.unmarkedOf S.graph .string) t

/-- The right part of a rope is entered first. -/
private theorem Tracks.yields_enterParts {id left right : StringId}
    (h : S.Tracks (.scanning id.thing :: hand) waiting o s) (hhome : S.home id.thing)
    (hchildren : ∀ child, S.graph.Child id.thing child ↔ child ∈ [left.thing, right.thing])
    {next : Option StringId → Option StringId → MarkM ω Unit} {post : Unit → Marking ω → Prop}
    (hnext : ∀ first last t, S.Entered hand waiting o s first last t →
      Yields (next first last) t post S.Overflows) :
    Yields (enterPart S.graph right >>= fun last => enterPart S.graph left >>= fun first =>
      next first last) s post S.Overflows := by
  have hleft : S.Welcome left.thing := Terrain.welcome_child hhome ((hchildren _).mpr (by simp))
  have hright : S.Welcome right.thing := Terrain.welcome_child hhome ((hchildren _).mpr (by simp))
  simp only [yields_bind]
  apply (h.yields_enterPart hright).imp
  intro last t₁ hend
  obtain ⟨hstack₁, hlast, o₁, hrun₁, h₁, hmarkedRight, hmarkedLast, hfewer₁⟩ := hend
  apply (h₁.yields_enterPart hleft).imp
  intro first t₂ hend
  obtain ⟨hstack₂, hfirst, o₂, hrun₂, h₂, hmarkedLeft, -, hfewer₂⟩ := hend
  have hreached : S.Reached [left.thing, right.thing] o₂ := by
    intro thing hthing hallowed
    simp only [List.mem_cons, List.not_mem_nil, or_false] at hthing
    rcases hthing with rfl | rfl
    · exact hmarkedLeft hallowed
    · exact Outline.marked_of_run hrun₂ (hmarkedRight hallowed)
  have hperm : (Found first ++ (Found last ++ .scanning id.thing :: hand)).Perm
      (.scanning id.thing :: (Found first ++ (Found last ++ hand))) := by
    rw [← List.append_assoc, ← List.append_assoc]
    exact List.perm_middle
  obtain ⟨o₃, hrun₃, h₃, -⟩ :=
    (h₂.perm hperm).close (hreached.done fun child => (hchildren child).mp)
  have hmarked : ∀ next, last = some next → o₃.Marked next.thing :=
    fun next heq => Outline.marked_of_run (hrun₂.trans hrun₃) (hmarkedLast next heq)
  have hfewer := Outline.unmarkedOf_run hrun₃ S.graph .string
  exact hnext first last t₂ ⟨hstack₂.trans hstack₁, hfirst, hlast, o₃,
    (hrun₁.trans hrun₂).trans hrun₃, h₃, hmarked, by omega⟩

/-- A rope is walked to its end, and those set aside with it. -/
theorem Tracks.yields_scanRope (depth steps : Nat) {id : StringId}
    (h : S.Tracks (.fresh id.thing :: hand) waiting o s) (hid : S.IsRope id)
    (hwaiting : ∀ id ∈ waiting, S.IsRope id) (hdepth : s.stack.size = waiting.length + depth)
    (hsteps : o.unmarkedOf S.graph .string + waiting.length < steps) :
    Yields (scanRope S.graph depth steps id) s
      (fun _ => S.Lands o hand [] fun _ => True) S.Overflows := by
  induction steps generalizing id waiting o s with
  | zero => exact absurd hsteps (Nat.not_lt_zero _)
  | succ steps ih =>
    obtain ⟨hhome, string, hstring, hrope⟩ := hid
    obtain ⟨left, right, hparts, hreferences⟩ := StringCell.references_of_rope hrope
    have hchildren : ∀ child, S.graph.Child id.thing child ↔ child ∈ [left.thing, right.thing] :=
      fun child => by rw [S.sound.child_string hstring, hreferences]
    rw [scanRope, yields_bind]
    apply h.yields_noteScan.imp
    intro _ t₁ hend
    obtain ⟨hstack₁, o₁, hrun₁, h₁, -⟩ := hend
    rw [yields_bind, hstring, yields_need_some, hparts]
    refine h₁.yields_enterParts hhome hchildren fun first last t₂ hentered => ?_
    obtain ⟨hstack₂, hfirst, hlast, o₂, hrun₂, h₂, hmarked, hfewer₂⟩ := hentered
    have hrun : S.Run o o₂ := hrun₁.trans hrun₂
    have hsize : t₂.stack.size = waiting.length + depth :=
      (congrArg SegmentedStack.size (hstack₂.trans hstack₁)).trans hdepth
    have hfewer := hfewer₂.trans (Outline.unmarkedOf_run hrun₁ S.graph .string)
    -- One rope is walked next; a second one waits on the stack.
    cases first with
    | none =>
      cases last with
      | none =>
        dsimp only [Option.or]
        rw [yields_bind, yields_get]
        refine yields_ite (fun hne => ?_) fun heq => ?_
        · obtain ⟨next, rest, rfl⟩ : ∃ next rest, waiting = next :: rest := by
            refine List.exists_cons_of_ne_nil fun hnil => hne ?_
            rw [hsize, hnil]
            exact Nat.zero_add depth
          obtain ⟨plain, hitems, hplain⟩ := h₂.ropes
          rw [yields_bind]
          refine (h₂.yields_popEntry hitems ⟨plain, rfl, hplain⟩).imp ?_
          intro _ t₄ hend
          obtain ⟨rfl, hsize₄, h₅⟩ := hend
          rw [List.length_cons] at hsize hsteps
          refine (ih h₅ (hwaiting next (List.mem_cons_self ..)) ?_ (by omega) ?_).imp ?_
          · exact fun id hmem => hwaiting id (List.mem_cons_of_mem _ hmem)
          · simp only [Found, Option.map_none, Option.toList_none, List.length_nil] at hfewer
            omega
          · exact fun _ _ hlands => hlands.head hrun
        · rw [hsize] at heq
          obtain rfl : waiting = [] := List.length_eq_zero_iff.mp (by omega)
          exact ⟨o₂, hrun, h₂, trivial⟩
      | some next =>
        refine (ih h₂ (hlast next rfl) hwaiting hsize ?_).imp fun _ _ hlands => hlands.head hrun
        simp only [Found, Option.map_some, Option.toList_some, List.length_singleton] at hfewer
        omega
    | some next =>
      cases last with
      | none =>
        refine (ih h₂ (hfirst next rfl) hwaiting hsize ?_).imp fun _ _ hlands => hlands.head hrun
        simp only [Found, Option.map_some, Option.toList_some, List.length_singleton] at hfewer
        omega
      | some other =>
        simp only [Found, Option.map_some, Option.toList_some, List.length_singleton] at hfewer
        have hother := hlast other rfl
        have hrecords : (StackEntry.rope other).Records S.graph (.fresh other.thing) :=
          StackEntry.Records.whole (show (StackEntry.rope other).isValues = false from rfl) hother.2
        obtain ⟨plain, hitems, hplain⟩ := h₂.ropes
        change Yields (pushEntry (.rope other) >>= fun _ =>
          scanRope S.graph depth steps next) t₂ _ _
        rw [yields_bind]
        have hswapped := h₂.perm (.swap ..)
        apply (hswapped.yields_pushEntry hrecords (hmarked other rfl) (other :: waiting)
          ⟨plain, by rw [hitems]; rfl, hplain⟩).imp
        intro _ t₄ hend
        rcases hend with ⟨hsize₄, o₅, hrun₅, h₅, -⟩ | ⟨hstack₄, o₅, hrun₅, h₅, -⟩
        · have hle₅ := Outline.unmarkedOf_run hrun₅ S.graph .string
          refine (ih h₅ (hfirst next rfl) ?_ ?_ ?_).imp fun _ _ hlands =>
            hlands.head (hrun.trans hrun₅)
          · intro id hmem
            rcases List.mem_cons.mp hmem with rfl | hmem
            · exact hother
            · exact hwaiting id hmem
          · rw [hsize₄, hsize, List.length_cons]
            omega
          · rw [List.length_cons]
            omega
        · have hle₅ := Outline.unmarkedOf_run hrun₅ S.graph .string
          apply (ih h₅ (hfirst next rfl) hwaiting (by rw [hstack₄, hsize]) (by omega)).imp
          exact fun _ _ hlands => hlands.head (hrun.trans hrun₅)

theorem covers_pushString (id : StringId) : S.Covers (pushString S.graph id) [id.thing] := by
  refine .of_claim fun {hand o s} htracks hhome _ => ?_
  obtain ⟨string, hid⟩ := Graph.exists_string (S.home_allowed id.thing hhome).contains
  have hsteps : o.unmarkedOf S.graph .string < S.graph.strings.size + 1 :=
    Nat.lt_succ_of_le (o.unmarkedOf_le S.graph .string)
  rw [yields_bind, hid, yields_need_some]
  refine yields_ite (fun hrope => ?_) fun hrope => ?_
  · rw [yields_bind, yields_get]
    exact htracks.yields_scanRope _ _ ⟨hhome, string, hid, hrope⟩ nofun (Nat.zero_add _).symm hsteps
  · refine (htracks.yields_scanLinear _ hhome ⟨string, hid, by simpa using hrope⟩ hsteps).imp ?_
    exact fun _ _ h => h.2

end Setting

end MarkPhase
