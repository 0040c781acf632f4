import MarkPhase.Demo

/-!
The command line: runs the demonstration under the settings of the environment.
-/

def main : IO UInt32 := do
  let names := ["TREE_DEPTH", "GC_MARK_STACK_LIMIT", "GC_MARK_STACK_SEGMENT",
    "GC_MARK_STACK_CACHE", "GC_MARK_SLICE_BUDGET"]
  let settings ← names.filterMapM fun name => do
    return (← IO.getEnv name).map (name, ·)
  match MarkPhase.Demo.run (fun name => settings.lookup name) with
  | .ok lines =>
    lines.forM IO.println
    return 0
  | .error fault =>
    IO.eprintln fault.message
    return 101
