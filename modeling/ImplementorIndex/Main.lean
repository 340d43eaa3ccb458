import ImplementorIndex.Files.Build
import ImplementorIndex.Program

/-!
# The command line

The outer layer: it copies what the arguments name into a file tree, runs the program on it and
prints what comes out. Only what lies below the working directory can be named. Whatever cannot be
read is left out of the tree, as if it were not there.
-/

namespace ImplementorIndex.Main

open Files (Node)

/-- Copies a directory, nested at most so deep. Links below it are copied without their targets,
since nothing follows them. -/
def copyDirectory : Nat → String → IO Node
  | 0, _ => pure .empty
  | depth + 1, path => do
    let place ← IO.FS.realPath path
    let mut entries := []
    for entry in ← place.readDir do
      let node ← try
          match (← entry.path.symlinkMetadata).type with
          | .dir => some <$> copyDirectory depth entry.path.toString
          | .file => some <$> Node.file <$> IO.FS.readBinFile entry.path
          | .symlink => pure (some (Node.link ⟨""⟩))
          | .other => pure none
        catch _ => pure none
      if let some node := node then
        entries := Rows.put entry.fileName node entries
    pure (.directory entries)

def copy (path : Path) : IO (Option Node) := do
  try
    let place ← IO.FS.realPath path.text
    match (← place.metadata).type with
    | .dir => some <$> copyDirectory Files.pathLimit path.text
    | .file => some <$> Node.file <$> IO.FS.readBinFile path.text
    | _ => pure none
  catch _ => pure none

def leadsDown (path : Path) : Bool :=
  path.text ≠ "" && path.components.all fun component =>
    component ≠ .root && component ≠ .parent

/-- Copies what stands at a path into a tree, at the same path. -/
def copyInto (tree : Node) (path : Path) : IO Node := do
  if leadsDown path then
    match ← copy path with
    | some node => pure (tree.put path node)
    | none => pure tree
  else pure tree

/-- The files that the arguments name: the configuration, and the fragments below the root that it
gives. -/
def gather (arguments : List String) : IO Node := do
  match Arguments.read arguments with
  | .error _ => pure .empty
  | .ok request =>
    let tree ← copyInto .empty (request.config.getD Config.defaultFile)
    match (Program.configure tree request).value with
    | .error _ => pure tree
    | .ok config => copyInto tree config.root

/-- Warnings are always shown, the rest on request. -/
def isShown (arguments : List String) (event : Event) : Bool :=
  match event.level with
  | .warn | .error => true
  | .info | .debug =>
    match Arguments.read arguments with
    | .ok request => request.verbose
    | .error _ => false
  | .trace => false

def eventLine (event : Event) : String :=
  event.text ++ String.join (event.fields.map fun field => " " ++ field.1 ++ "=" ++ field.2)

end ImplementorIndex.Main

def main (arguments : List String) : IO UInt32 := do
  let tree ← ImplementorIndex.Main.gather arguments
  let run := ImplementorIndex.Program.run tree arguments
  for event in run.events.filter (ImplementorIndex.Main.isShown arguments) do
    IO.eprintln (ImplementorIndex.Main.eventLine event)
  IO.print run.value.output
  IO.eprint run.value.complaint
  pure (UInt32.ofNat run.value.exitCode)
