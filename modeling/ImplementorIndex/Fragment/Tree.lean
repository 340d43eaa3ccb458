import ImplementorIndex.Event
import ImplementorIndex.Files.Lookup
import ImplementorIndex.Fragment.Location
import ImplementorIndex.Fragment.Problem
import ImplementorIndex.Fragment.Reader

/-!
# Fragment trees

A fragment tree is the directory below which a documentation build has put its fragments. It is
searched for files whose place gives a trait key, and these are listed in the order of their paths,
in whatever order the search met them. Loading reads each of them and sets the failures aside.
-/

namespace ImplementorIndex.Fragment

open Files (Node Found)

structure FragmentFile where
  path : Path
  traitKey : TraitKey
deriving DecidableEq

structure Tree where
  root : Path
  files : List FragmentFile

structure LoadReport where
  payloads : List Payload := []
  failures : List (Path × Problem) := []

/-- Every fragment could be loaded. -/
def LoadReport.isClean (report : LoadReport) : Bool := report.failures.isEmpty

/-- The fragment file that something found is, if its place gives a trait key. -/
def fragmentOf? : Found → Option FragmentFile
  | .file path names => (TraitKey.ofNames? names).map fun key => ⟨path, key⟩
  | .unlistable _ => none

def skipEvent? : Found → Option Event
  | .file _ _ => none
  | .unlistable path =>
    some (.directorySkipped
      ("IO error for operation on " ++ path.text ++ ": " ++ Files.FileError.nameTooLong.message))

/-- The fragments among what was found, in the order of their paths. -/
def sortFragments (found : List Found) : List FragmentFile :=
  (found.filterMap fragmentOf?).mergeSort fun a b => (compare a.path b.path).isLE

/-- Searches the directory below a root for fragments. -/
def scan (top : Node) (root : Path) : Logged (Except Problem Tree) :=
  match Files.walk top root with
  | none => ⟨.error (.missingRoot root), []⟩
  | some found =>
    let files := sortFragments found
    ⟨.ok ⟨root, files⟩, found.filterMap skipEvent? ++ [.treeScanned root.text files.length]⟩

def readFragment (top : Node) (file : FragmentFile) : Except Problem Payload :=
  match Files.readText top file.path with
  | .error cause => .error (.unreadable file.path cause)
  | .ok text =>
    match decode file.traitKey text with
    | .error cause => .error (.malformed cause)
    | .ok payload => .ok payload

/-- Reads fragment files in order, setting the failures aside. -/
def loadFiles (top : Node) : List FragmentFile → Logged LoadReport
  | [] => pure {}
  | file :: rest =>
    match readFragment top file with
    | .ok payload => do
      let report ← loadFiles top rest
      pure { report with payloads := payload :: report.payloads }
    | .error problem => do
      Logged.note (.fileRejected file.path.text problem.message)
      let report ← loadFiles top rest
      pure { report with failures := (file.path, problem) :: report.failures }

def Tree.load (tree : Tree) (top : Node) : Logged LoadReport := loadFiles top tree.files

end ImplementorIndex.Fragment
