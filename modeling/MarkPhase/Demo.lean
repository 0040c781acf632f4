import MarkPhase.Draining
import MarkPhase.Samples
import MarkPhase.Settings
import MarkPhase.Sizes

/-!
A demonstration of the marker: a live tree of objects, a second tree that is
garbage, and a rope so long that no recursion could follow it. The tree's depth
and the marker's configuration come from settings.
-/

namespace MarkPhase

namespace Demo

/-- Builds everything and answers with the live tree and the rope. -/
def build (depth : Nat) : Builder (ObjectId × StringId) := do
  let compartment ← Builder.newCompartment "main"
  let type ← Builder.newTypeObject compartment [] none none none
  let base ← Builder.newBaseShape compartment none none none none
  let left ← Builder.atomize "left"
  let right ← Builder.atomize "right"
  let first ← Builder.newShape compartment base (.string left) none
  let shape ← Builder.newShape compartment base (.string right) (some first)
  let plan : Sample.Plan := { compartment, type, shape, fixed := 2 }
  let tree ← Sample.objectTree plan depth
  let _garbage ← Sample.objectTree plan (depth / 2)
  let rope ← Sample.ropeChain compartment 100000 false
  return (tree, rope)

/-- The depth that the settings ask for, from 1 to 23. -/
def treeDepth (setting : String → Option String) : Nat :=
  (((setting "TREE_DEPTH").bind readCount?).filter fun depth =>
    decide (0 < depth ∧ depth < 24)).getD 16

/-- Marks from the tree and the rope. The answer is the number of slices. -/
def mark (g : Graph) (budget : Budget) (tree : ObjectId) (rope : StringId) :
    MarkM Unit Nat := do
  MarkM.make g (.thing "tree" tree.thing)
  MarkM.make g (.thing "rope" rope.thing)
  MarkM.drainAll g budget

/-- A name in a column of twelve characters. -/
def column (name : String) : String :=
  name ++ String.ofList (List.replicate (12 - name.length) ' ')

def report (g : Graph) (marking : Marking Unit) (slices : Nat) (rope : String) :
    List String :=
  let statistics := marking.toMarker.statistics
  let marked := g.things.countP marking.marks.isMarked
  [s!"marked {marked} of {g.thingCount} things in {slices} slice(s)"] ++
  Kind.all.map (fun kind =>
    s!"  {column kind.name} {statistics.scanned.count kind}") ++
  [s!"peak stack depth {statistics.peakDepth} ({sizeText (entryBytes * statistics.peakDepth)}), " ++
      s!"delayed {statistics.delayed}",
    s!"rope length {rope.utf8ByteSize}"]

/-- The lines of the demonstration. -/
def run (setting : String → Option String) : Except Fault (List String) :=
  match (build (treeDepth setting)).run Heap.empty with
  | .error fault _ => .error fault
  | .ok (tree, rope) heap => do
    let configuration := Configuration.ofSettings setting
    let marker ← Marker.make configuration
    match (mark heap.graph configuration.budget tree rope).run
        { heap.ledger, marker with } with
    | .error fault _ => .error fault
    | .ok slices marking =>
      return report heap.graph marking slices (← heap.graph.flatten rope)

end Demo

end MarkPhase
