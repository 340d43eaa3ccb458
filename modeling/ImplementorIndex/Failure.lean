import ImplementorIndex.Fragment.Problem

/-!
# Failures

Why the program has to give up before it can answer. A failure says what was being done and what
stood in the way; a fragment that cannot be read is no failure, but part of an answer.
-/

namespace ImplementorIndex

inductive Failure where
  /-- The fragments below a root cannot be searched. -/
  | scan (root : Path) (problem : Fragment.Problem)
  /-- A configuration file cannot be read. -/
  | configUnreadable (path : Path) (problem : Files.FileError)
  /-- A configuration file holds no configuration. -/
  | configInvalid (path : Path)
  /-- The registry of a replay has turned the page away. -/
  | pageRefused (reason : String)
deriving DecidableEq

namespace Failure

def message : Failure → String
  | scan root _ => "cannot scan fragments in " ++ root.text
  | configUnreadable path _ => "failed to read " ++ path.text
  | configInvalid path => "invalid config " ++ path.text
  | pageRefused reason => reason

/-- What stood in the way, where that is not said already. Where a configuration is wrong is not said
either. -/
def cause? : Failure → Option String
  | scan _ problem => some problem.message
  | configUnreadable _ problem => some problem.message
  | configInvalid _ => some "<toml error>"
  | pageRefused _ => none

/-- Moves a text to the right, each of its lines by four spaces. -/
def indent (text : String) : String :=
  "    " ++ String.join (text.toList.map fun c => if c = '\n' then "\n    " else String.singleton c)

/-- A report closes its last line. The remark on a wrong configuration stands for a longer text and
leaves it open. -/
def closing : Failure → String
  | configInvalid _ => ""
  | _ => "\n"

def report (failure : Failure) : String :=
  let causedBy := match failure.cause? with
    | none => ""
    | some cause => "\n\nCaused by:\n" ++ indent cause
  "Error: " ++ failure.message ++ causedBy ++ failure.closing

end Failure

end ImplementorIndex
