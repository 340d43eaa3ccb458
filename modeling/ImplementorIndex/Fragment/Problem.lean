import ImplementorIndex.Files.Basic
import ImplementorIndex.Fragment.Malformed

/-!
# What can go wrong with fragments in files
-/

namespace ImplementorIndex.Fragment

/-- Why a fragment, or a whole tree of them, cannot be had. -/
inductive Problem where
  /-- The text of a fragment is malformed. -/
  | malformed (cause : Malformed)
  /-- The root of a tree is not a directory. -/
  | missingRoot (path : Path)
  /-- A fragment file cannot be read. -/
  | unreadable (path : Path) (cause : Files.FileError)
deriving DecidableEq

def Problem.message : Problem → String
  | malformed cause => cause.message
  | missingRoot path => "fragment root " ++ path.text ++ " is not a directory"
  | unreadable path cause => "failed to read " ++ path.text ++ ": " ++ cause.message

end ImplementorIndex.Fragment
