import ImplementorIndex.Path
import ImplementorIndex.Rows

/-!
# Files

A tree of directories, files and symbolic links, as a value. Relative paths start at its top, the
working directory; nothing is known of what lies outside. `Files.Lookup` says what a path leads to,
`Files.Build` how a tree is put together.

Names are texts. A disk may also hold names whose bytes spell no text; such an entry is not part of a
tree. A fragment at or below one has no trait key (`TraitKey.ofPathBytes?`) and would not be listed.
-/

namespace ImplementorIndex.Files

inductive Node where
  | file (content : ByteArray)
  | link (target : Path)
  | directory (entries : List (String × Node))
deriving Inhabited

inductive FileError where
  | notFound
  | notDirectory
  | isDirectory
  | nameTooLong
  | tooManyLinks
  | nulInName
  | notText
deriving DecidableEq

def FileError.message : FileError → String
  | notFound => "No such file or directory (os error 2)"
  | notDirectory => "Not a directory (os error 20)"
  | isDirectory => "Is a directory (os error 21)"
  | nameTooLong => "File name too long (os error 36)"
  | tooManyLinks => "Too many levels of symbolic links (os error 40)"
  | nulInName => "file name contained an unexpected NUL byte"
  | notText => "stream did not contain valid UTF-8"

namespace Node

def empty : Node := .directory []

end Node

end ImplementorIndex.Files
