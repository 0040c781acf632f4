import MarkPhase.Proofs.Changes

/-!
What every move of a marker keeps up, on whatever graph it is made. The stack and the delayed
list stay in order, segments keep their size, and nothing is unmarked. So the stack and the
delayed list are in order in every state that a marker may come to.
-/

namespace MarkPhase

variable {ω : Type} {g : Graph} {s t : Marking ω}

namespace Marking

/-- The stack and the delayed list are in order. -/
structure Orderly (s : Marking ω) : Prop where
  stack : s.stack.Tidy
  delayed : s.delayed.Tidy

/-- What has been in order still is, and what has been marked still is. -/
structure Proceeds (s t : Marking ω) : Prop where
  orderly : s.Orderly → t.Orderly
  segmentSize : t.stack.segmentSize = s.stack.segmentSize
  itemBytes : t.stack.itemBytes = s.stack.itemBytes
  grows : ∀ thing, s.marks.isMarked thing = true → t.marks.isMarked thing = true

instance : IsPreorder (Marking ω) Proceeds where
  refl _ := ⟨id, rfl, rfl, fun _ => id⟩
  trans _ _ _ h h' := {
    orderly := h'.orderly ∘ h.orderly
    segmentSize := h'.segmentSize.trans h.segmentSize
    itemBytes := h'.itemBytes.trans h.itemBytes
    grows := fun thing hmarked => h'.grows thing (h.grows thing hmarked) }

namespace Proceeds

theorem of_eq (hstack : t.stack = s.stack) (hdelayed : t.delayed = s.delayed)
    (hmarks : t.marks = s.marks) : s.Proceeds t where
  orderly h := ⟨hstack ▸ h.stack, hdelayed ▸ h.delayed⟩
  segmentSize := by rw [hstack]
  itemBytes := by rw [hstack]
  grows _ hmarked := hmarks ▸ hmarked

theorem set (s : Marking ω) (thing : Thing) (color : Color) :
    s.Proceeds { s with marks := s.marks.set thing (.marked color) } where
  orderly h := ⟨h.stack, h.delayed⟩
  segmentSize := rfl
  itemBytes := rfl
  grows _ hmarked := (ThingTable.isMarked_set ..).mpr (Or.inr hmarked)

end Proceeds

theorem admits_proceeds : Admits (Proceeds : Marking ω → Marking ω → Prop) where
  aside _ _ _ _ _ _ := .of_eq rfl rfl rfl
  delayed _ _ htidy _ := ⟨fun h => ⟨h.stack, htidy h.delayed⟩, rfl, rfl, fun _ => id⟩
  delays _ := .of_eq rfl rfl rfl
  extend s entry _ := {
    orderly := fun h => ⟨h.stack.extend entry, h.delayed⟩
    segmentSize := SegmentedStack.segmentSize_extend _ _
    itemBytes := SegmentedStack.itemBytes_extend _ _
    grows := fun _ => id }
  pop s := by
    obtain ⟨hsegment, hbytes, -, -⟩ := s.stack.settings_pop
    exact ⟨fun h => ⟨h.stack.pop, h.delayed⟩, hsegment, hbytes, fun _ => id⟩

end Marking

namespace MarkM

open Marking

/-- Whatever a marker does, it proceeds. -/
theorem lasting_proceeds (g : Graph) : Lasting g (fun m : MarkM ω _ => Respects Proceeds m) :=
  admits_proceeds.lasting_respects g (fun s thing _ => .set s thing _)
    fun _ _ => .of_eq rfl rfl rfl

theorem proceeds_command (g : Graph) (command : Command) :
    Respects Proceeds (command.make g : MarkM ω Unit) := by
  refine (lasting_proceeds g).command (.modify fun s => ?_)
    (fun _ => .modify fun _ => .of_eq rfl rfl rfl) fun _ _ _ _ _ => trivial
  exact {
    orderly := fun h => ⟨(h.stack.clear false).resetPeak, DelayedList.tidy_empty⟩
    segmentSize := rfl
    itemBytes := rfl
    grows := fun _ => id }

end MarkM

/-- How a marker has come to a state. It was made for some configuration and sent out, with
some context, colour and watcher, to make its marks in some ledger; and it has made all the
commands, over the graph, without a fault. -/
structure Marking.Origin (g : Graph) (s : Marking ω) where
  configuration : Configuration
  marker : Marker ω
  made : Marker.make configuration = .ok marker
  ledger : Ledger
  context : Context
  color : Color
  watcher : Option (Watcher ω)
  commands : List Command
  comes : commands.forM (Command.make g)
    { toLedger := ledger, toMarker := { marker with context, color, watcher } } = .ok () s

namespace Marking.Origin

/-- Wherever a marker has come to, its stack and its delayed list are in order. -/
theorem orderly (origin : s.Origin g) : s.Orderly := by
  obtain ⟨-, htidy, -, hdelayed, -⟩ := Marker.idle_of_make origin.made
  have hproceeds := (Respects.forM (R := Proceeds) fun command _ =>
    MarkM.proceeds_command g command) _ |>.of_ok origin.comes
  exact hproceeds.orderly ⟨htidy, hdelayed ▸ DelayedList.tidy_empty⟩

end Marking.Origin

/-- A marker that has made no command yet. -/
def Launch.origin (L : Launch ω) (g : Graph) : Marking.Origin g L.start where
  configuration := L.configuration
  marker := L.marker
  made := L.made
  ledger := L.ledger
  context := L.context
  color := L.color
  watcher := L.watcher
  commands := []
  comes := rfl

end MarkPhase
