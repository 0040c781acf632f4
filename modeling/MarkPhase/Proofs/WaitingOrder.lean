import MarkPhase.Proofs.Upkeep

/-!
The delayed list under any calls. It answers as the plain list of the waiting things would, the
newest first: each thing waits once, what was added last is taken first, and what was added is
taken once before it may be added again, unless the list is cleared in between.
-/

namespace MarkPhase

/-- A call that is made of the delayed list. -/
inductive DelayCall where
  | add (thing : Thing)
  | pop
  | clear
  | contains (thing : Thing)
  | size
  | isEmpty
deriving DecidableEq

/-- What a call of the delayed list gives back. -/
inductive DelayReply where
  | done
  | truth (value : Bool)
  | taken (thing : Option Thing)
  | number (value : Nat)
deriving DecidableEq

namespace DelayCall

def make (delayed : DelayedList) : DelayCall → DelayReply × DelayedList
  | .add thing => (.truth (delayed.add thing).1, (delayed.add thing).2)
  | .pop => (.taken delayed.pop.1, delayed.pop.2)
  | .clear => (.done, {})
  | .contains thing => (.truth (delayed.contains thing), delayed)
  | .size => (.number delayed.size, delayed)
  | .isEmpty => (.truth delayed.isEmpty, delayed)

/-- What a set has to reply whose members have come in this order, the newest first. -/
def reply (waiting : List Thing) : DelayCall → DelayReply
  | .add thing => .truth (thing ∉ waiting)
  | .pop => .taken waiting.head?
  | .clear => .done
  | .contains thing => .truth (thing ∈ waiting)
  | .size => .number waiting.length
  | .isEmpty => .truth (waiting = [])

/-- The members that the set has to be left with. -/
def change (waiting : List Thing) : DelayCall → List Thing
  | .add thing => if thing ∈ waiting then waiting else thing :: waiting
  | .pop => waiting.tail
  | .clear => []
  | .contains _ | .size | .isEmpty => waiting

/-- The members that are left of none by some calls. -/
def members (calls : List DelayCall) : List Thing :=
  calls.foldl change []

theorem members_concat (calls : List DelayCall) (call : DelayCall) :
    members (calls ++ [call]) = call.change (members calls) := by
  unfold members
  rw [List.foldl_append, List.foldl_cons, List.foldl_nil]

/-- A member was added when just the members behind it were there, and nothing has been cleared
since. -/
theorem exists_added (calls : List DelayCall) {newer rest : List Thing} {thing : Thing}
    (hmembers : members calls = newer ++ thing :: rest) :
    ∃ earlier later, calls = earlier ++ .add thing :: later ∧ thing ∉ members earlier ∧
      members earlier = rest ∧ .clear ∉ later := by
  induction calls using List.reverseRecOn generalizing newer with
  | nil =>
    have hnone : [] = newer ++ thing :: rest := hmembers
    exact absurd hnone.symm (List.append_ne_nil_of_right_ne_nil _ (List.cons_ne_nil _ _))
  | append_singleton calls call ih =>
    rw [members_concat] at hmembers
    -- A call that leaves the member where it is stands among the later ones.
    have keep {newer' : List Thing} (hbefore : members calls = newer' ++ thing :: rest)
        (hcall : call ≠ .clear) : ∃ earlier later,
          calls ++ [call] = earlier ++ .add thing :: later ∧ thing ∉ members earlier ∧
            members earlier = rest ∧ .clear ∉ later := by
      obtain ⟨earlier, later, hcalls, hnew, hrest, hclear⟩ := ih hbefore
      refine ⟨earlier, later ++ [call], ?_, hnew, hrest, ?_⟩
      · rw [hcalls, List.append_assoc, List.cons_append]
      · rw [List.mem_append, List.mem_singleton, not_or]
        exact ⟨hclear, hcall.symm⟩
    cases call with
    | add other =>
      rw [change] at hmembers
      split at hmembers
      · exact keep hmembers nofun
      · rename_i hother
        cases newer with
        | nil =>
          obtain ⟨hthing, hrest⟩ := List.cons.inj hmembers
          subst hthing
          exact ⟨calls, [], rfl, hother, hrest, List.not_mem_nil⟩
        | cons first newer => exact keep (List.cons.inj hmembers).2 nofun
    | pop =>
      cases hbefore : members calls with
      | nil =>
        rw [hbefore] at hmembers
        exact absurd hmembers.symm
          (List.append_ne_nil_of_right_ne_nil _ (List.cons_ne_nil _ _))
      | cons first waiting =>
        rw [hbefore] at hmembers
        have htail : waiting = newer ++ thing :: rest := hmembers
        have hlonger : members calls = (first :: newer) ++ thing :: rest := by
          rw [hbefore, htail, List.cons_append]
        exact keep hlonger nofun
    | clear =>
      exact absurd hmembers.symm (List.append_ne_nil_of_right_ne_nil _ (List.cons_ne_nil _ _))
    | contains _ => exact keep hmembers nofun
    | size => exact keep hmembers nofun
    | isEmpty => exact keep hmembers nofun

/-- What a call takes and what it leaves is what there was and what it adds. -/
theorem count_change (waiting : List Thing) (thing : Thing) {call : DelayCall}
    (hcall : call ≠ .clear) :
    (if (call, call.reply waiting) = (.pop, .taken (some thing)) then 1 else 0) +
        (call.change waiting).count thing =
      (if (call, call.reply waiting) = (.add thing, .truth true) then 1 else 0) +
        waiting.count thing := by
  cases call with
  | add other =>
    by_cases hmem : other ∈ waiting
    · simp [reply, change, hmem]
    · by_cases heq : other = thing
      · subst heq
        simp [reply, change, hmem, Nat.add_comm]
      · simp [reply, change, hmem, heq, List.count_cons_of_ne heq]
  | pop =>
    cases waiting with
    | nil => simp [reply, change]
    | cons first rest => simp [reply, change, List.count_cons, Nat.add_comm]
  | clear => exact absurd rfl hcall
  | contains _ => simp [change]
  | size => simp [change]
  | isEmpty => simp [change]

end DelayCall

namespace DelayedList

variable {delayed : DelayedList}

/-- The list after some calls have been made of it, one after the other. -/
def after (delayed : DelayedList) (calls : List DelayCall) : DelayedList :=
  calls.foldl (fun delayed call => (call.make delayed).2) delayed

/-- The calls, each with the reply it gets. -/
def log (delayed : DelayedList) : List DelayCall → List (DelayCall × DelayReply)
  | [] => []
  | call :: calls => (call, (call.make delayed).1) :: (call.make delayed).2.log calls

theorem after_cons (delayed : DelayedList) (call : DelayCall) (calls : List DelayCall) :
    delayed.after (call :: calls) = (call.make delayed).2.after calls :=
  rfl

theorem after_append (delayed : DelayedList) (earlier later : List DelayCall) :
    delayed.after (earlier ++ later) = (delayed.after earlier).after later :=
  List.foldl_append ..

namespace Tidy

/-- Each call is answered as the list of the waiting things has to answer it. -/
theorem make (h : delayed.Tidy) (call : DelayCall) :
    (call.make delayed).1 = call.reply delayed.things ∧
      (call.make delayed).2.things = call.change delayed.things ∧
        (call.make delayed).2.Tidy := by
  cases call with
  | add thing =>
    rw [DelayCall.make, DelayCall.reply, DelayCall.change]
    by_cases hmem : thing ∈ delayed.things
    · rw [h.add_of_mem hmem, if_pos hmem, decide_eq_false (not_not.mpr hmem)]
      exact ⟨rfl, rfl, h⟩
    · obtain ⟨hadded, hthings, htidy⟩ := h.add_of_notMem hmem
      rw [hadded, hthings, if_neg hmem, decide_eq_true hmem]
      exact ⟨rfl, rfl, htidy⟩
  | pop =>
    rw [DelayCall.make, DelayCall.reply, DelayCall.change]
    cases hthings : delayed.things with
    | nil =>
      rw [pop_nil hthings]
      exact ⟨rfl, hthings, h⟩
    | cons thing rest =>
      obtain ⟨htaken, hrest, htidy⟩ := h.pop_cons hthings
      exact ⟨congrArg DelayReply.taken htaken, hrest, htidy⟩
  | clear => exact ⟨rfl, rfl, tidy_empty⟩
  | contains thing =>
    refine ⟨congrArg DelayReply.truth ?_, rfl, h⟩
    rw [Bool.eq_iff_iff, h.contains_iff, decide_eq_true_iff]
  | size => exact ⟨rfl, rfl, h⟩
  | isEmpty =>
    refine ⟨congrArg DelayReply.truth ?_, rfl, h⟩
    rw [Bool.eq_iff_iff, isEmpty_iff, decide_eq_true_iff]

theorem after (h : delayed.Tidy) (calls : List DelayCall) : (delayed.after calls).Tidy := by
  induction calls generalizing delayed with
  | nil => exact h
  | cons call calls ih => exact ih (h.make call).2.2

theorem things_after (h : delayed.Tidy) (calls : List DelayCall) :
    (delayed.after calls).things = calls.foldl DelayCall.change delayed.things := by
  induction calls generalizing delayed with
  | nil => rfl
  | cons call calls ih =>
    obtain ⟨-, hthings, htidy⟩ := h.make call
    rw [after_cons, ih htidy, hthings, List.foldl_cons]

/-- While nothing is cleared, a thing is taken as often as it is added, but for whether it waits
at either end. -/
theorem count_log (h : delayed.Tidy) (thing : Thing) {calls : List DelayCall}
    (hclear : .clear ∉ calls) :
    (delayed.log calls).count (.pop, .taken (some thing)) +
        (delayed.after calls).things.count thing =
      (delayed.log calls).count (.add thing, .truth true) + delayed.things.count thing := by
  induction calls generalizing delayed with
  | nil => rfl
  | cons call calls ih =>
    rw [List.mem_cons, not_or] at hclear
    obtain ⟨hreply, hthings, htidy⟩ := h.make call
    have hcall := DelayCall.count_change delayed.things thing (Ne.symm hclear.1)
    have hrest := ih htidy hclear.2
    rw [hthings] at hrest
    rw [log, after_cons, List.count_cons, List.count_cons, hreply]
    simp only [beq_iff_eq]
    omega

end Tidy

/-- What a new list has become when these calls have been made of it. -/
def ofCalls (calls : List DelayCall) : DelayedList :=
  after {} calls

theorem tidy_ofCalls (calls : List DelayCall) : (ofCalls calls).Tidy :=
  tidy_empty.after calls

theorem things_ofCalls (calls : List DelayCall) :
    (ofCalls calls).things = DelayCall.members calls :=
  tidy_empty.things_after calls

/-- What holds of a list that these calls have been made of. -/
structure TakesNewest (calls : List DelayCall) : Prop where
  nodup : (ofCalls calls).things.Nodup
  mem_codes : ∀ code,
    code ∈ (ofCalls calls).codes ↔ ∃ thing ∈ (ofCalls calls).things, thing.code = code
  /-- Any further call gets the reply of the waiting things and changes them as it should. -/
  replies : ∀ call : DelayCall,
    (call.make (ofCalls calls)).1 = call.reply (ofCalls calls).things ∧
      (call.make (ofCalls calls)).2.things = call.change (ofCalls calls).things
  /-- What is taken may be added again. -/
  again : ∀ thing left, (ofCalls calls).pop = (some thing, left) → (left.add thing).1 = true
  /-- Whatever waits was added when just the things behind it waited. -/
  newest : ∀ newer thing rest, (ofCalls calls).things = newer ++ thing :: rest →
    ∃ earlier later, calls = earlier ++ .add thing :: later ∧
      ((ofCalls earlier).add thing).1 = true ∧ (ofCalls earlier).things = rest ∧ .clear ∉ later
  /-- What has been added is taken once for each time it is added, but for the last time where
  it waits still. -/
  once : ∀ earlier thing later added, calls = earlier ++ .add thing :: later →
    (ofCalls earlier).add thing = (true, added) → .clear ∉ later →
      (added.log later).count (.pop, .taken (some thing)) +
          (if thing ∈ (ofCalls calls).things then 1 else 0) =
        (added.log later).count (.add thing, .truth true) + 1

theorem takesNewest (calls : List DelayCall) : TakesNewest calls where
  nodup := (tidy_ofCalls calls).nodup
  mem_codes := (tidy_ofCalls calls).mem_codes
  replies call := by
    obtain ⟨hreply, hthings, -⟩ := (tidy_ofCalls calls).make call
    exact ⟨hreply, hthings⟩
  again thing left hpop := by
    have htidy := tidy_ofCalls calls
    have hleft : left = (ofCalls calls).pop.2 := by rw [hpop]
    cases hthings : (ofCalls calls).things with
    | nil =>
      rw [Tidy.pop_nil hthings] at hpop
      exact absurd (congrArg Prod.fst hpop) nofun
    | cons first rest =>
      obtain ⟨htaken, hrest, hpopped⟩ := htidy.pop_cons hthings
      have hfirst : first = thing := by
        rw [hpop] at htaken
        exact (Option.some.inj htaken).symm
      subst hfirst
      have hgone : first ∉ left.things := by
        have hnodup := htidy.nodup
        rw [hthings, List.nodup_cons] at hnodup
        rw [hleft, hrest]
        exact hnodup.1
      exact ((hleft ▸ hpopped : left.Tidy).add_of_notMem hgone).1
  newest newer thing rest hthings := by
    rw [things_ofCalls] at hthings
    obtain ⟨earlier, later, hcalls, hnew, hrest, hclear⟩ := DelayCall.exists_added calls hthings
    rw [← things_ofCalls] at hnew hrest
    exact ⟨earlier, later, hcalls, ((tidy_ofCalls earlier).add_of_notMem hnew).1, hrest, hclear⟩
  once earlier thing later added hcalls hadded hclear := by
    obtain ⟨htidy, hcount⟩ := (tidy_ofCalls earlier).add thing
    rw [hadded] at htidy hcount
    have hends : ofCalls calls = added.after later := by
      rw [hcalls, ofCalls, after_append, after_cons, DelayCall.make]
      exact congrArg (fun next => after next.2 later) hadded
    have hlog := htidy.count_log thing hclear
    rw [hcount thing, if_pos rfl, ← hends] at hlog
    rw [← hlog, (tidy_ofCalls calls).nodup.count]

end DelayedList

/-- The delayed list gives back the newest of its members first, whatever calls are made of it,
and wherever a marker has come to, something waits just if some thing is said to wait. -/
theorem DelayedList.gives_back_newest (calls : List DelayCall) :
    TakesNewest calls ∧
      ∀ (ω : Type) (g : Graph) (s : Marking ω) (_ : s.Origin g),
        s.delayed.isEmpty = false ↔ ∃ thing, s.delayed.contains thing = true := by
  refine ⟨takesNewest calls, fun ω g s origin => ?_⟩
  have htidy := origin.orderly.delayed
  rw [Bool.eq_false_iff, Ne, Tidy.isEmpty_iff]
  constructor
  · intro hne
    obtain ⟨thing, hmem⟩ := List.exists_mem_of_ne_nil _ hne
    exact ⟨thing, (htidy.contains_iff thing).mpr hmem⟩
  · intro hsome
    obtain ⟨thing, hcontains⟩ := hsome
    exact List.ne_nil_of_mem ((htidy.contains_iff thing).mp hcontains)

/-- Of two things one is taken and waits again, and after a clearing both come back in the other
order. A marker with room for one thing lets the second one wait. -/
theorem DelayedList.gives_back_newest_sample :
    let shape := Ref.thing (⟨0⟩ : ShapeId)
    let object := Ref.thing (⟨0⟩ : ObjectId)
    let calls : List DelayCall := [.add shape, .add object, .pop, .add object, .clear,
      .add object, .add shape, .add object]
    let L : Launch Unit := .sample 1 none
    let commands : List Command := [.step (.call (.unnamed ⟨.object, 0⟩)),
      .step (.call (.unnamed ⟨.object, 1⟩))]
    (ofCalls calls).things = [shape, object] ∧
      (({} : DelayedList).log calls).map Prod.snd = [.truth true, .truth true,
        .taken (some object), .truth true, .done, .truth true, .truth true, .truth false] ∧
      TakesNewest calls ∧
      ∃ s, commands.forM (Command.make L.graph) L.start = .ok () s ∧
        s.delayed.things = [⟨.object, 1⟩] ∧
        (s.delayed.isEmpty = false ↔ ∃ thing, s.delayed.contains thing = true) := by
  intro shape object calls L commands
  obtain ⟨_, s, hrun, hthings⟩ : ∃ a s, commands.forM (Command.make L.graph) L.start = .ok a s ∧
      s.delayed.things = [⟨.object, 1⟩] := Yields.exists_post (by decide +kernel)
  let origin : s.Origin L.graph := { L.origin L.graph with commands, comes := hrun }
  obtain ⟨htakes, hwaits⟩ := gives_back_newest calls
  exact ⟨by decide +kernel, by decide +kernel, htakes, s, hrun, hthings,
    hwaits Unit L.graph s origin⟩

end MarkPhase
