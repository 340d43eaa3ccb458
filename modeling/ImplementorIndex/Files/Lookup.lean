import ImplementorIndex.Files.Basic

/-!
# What a path leads to

Paths are followed part by part from the top of a tree. Symbolic links are followed up to a limit,
names and paths are limited in size, and a part behind something that is no directory is an error.
Paths that start at the root, or that lead above the top, lead to directories outside of the tree,
in which nothing is found.

Paths and names are texts, so neither a lookup nor a walk comes across a name that is no text.
-/

namespace ImplementorIndex.Files

def pathLimit : Nat := 4095

def nameLimit : Nat := 255

/-- How many links may be followed on the way. -/
def linkLimit : Nat := 40

/-- The node at a place below another, given by names; links are not followed. -/
def nodeAt? : List String → Node → Option Node
  | [], node => some node
  | name :: rest, .directory entries => (Rows.find? name entries).bind (nodeAt? rest)
  | _ :: _, _ => none

/-- The parts of a path that have to be followed. A slash at the end asks for a directory, as a dot
does. -/
def partsOf (path : Path) : List String :=
  let parts := splitSlash path.text.toList
  let named := parts.filter (· ≠ [])
  (if parts.getLast? = some [] then named ++ [['.']] else named).map String.ofList

/-- The path can be handed to the system at all. -/
def checkPath (path : Path) : Except FileError Unit :=
  if path.text.toList.contains '\x00' then .error .nulInName
  else if path.text.isEmpty then .error .notFound
  else if pathLimit < path.byteSize then .error .nameTooLong
  else .ok ()

inductive Place where
  /-- below the top, over names given in reverse -/
  | inside (names : List String)
  /-- in a directory outside of the tree -/
  | outside
deriving DecidableEq

namespace Place

def node? (top : Node) : Place → Option Node
  | inside names => nodeAt? names.reverse top
  | outside => some .empty

def above : Place → Place
  | inside (_ :: names) => inside names
  | inside [] => outside
  | outside => outside

def entry (name : String) : Place → Place
  | inside names => inside (name :: names)
  | outside => outside

def start (path : Path) (place : Place) : Place := if path.isAbsolute then outside else place

end Place

/-- Follows parts from a place, with so many links left to follow. -/
def follow (top : Node) (links : Nat) (place : Place) (parts : List String) :
    Except FileError Node :=
  match place.node? top, parts with
  | none, _ => .error .notFound
  | some node, [] => .ok node
  | some (.directory entries), part :: rest =>
    if part = "." then follow top links place rest
    else if part = ".." then follow top links place.above rest
    else if nameLimit < part.utf8ByteSize then .error .nameTooLong
    else
      match Rows.find? part entries with
      | none => .error .notFound
      | some (.link target) =>
        match links with
        | 0 => .error .tooManyLinks
        | links + 1 =>
          match checkPath target with
          | .error problem => .error problem
          | .ok () => follow top links (place.start target) (partsOf target ++ rest)
      | some _ => follow top links (place.entry part) rest
  | some _, _ :: _ => .error .notDirectory
termination_by (links, parts.length)

def resolve (top : Node) (path : Path) : Except FileError Node := do
  checkPath path
  follow top linkLimit (Place.start path (.inside [])) (partsOf path)

def isDirectory (top : Node) (path : Path) : Bool :=
  match resolve top path with
  | .ok (.directory _) => true
  | _ => false

def isFile (top : Node) (path : Path) : Bool :=
  match resolve top path with
  | .ok (.file _) => true
  | _ => false

def readText (top : Node) (path : Path) : Except FileError String := do
  match ← resolve top path with
  | .file content =>
    match String.fromUTF8? content with
    | some text => .ok text
    | none => .error .notText
  | .directory _ => .error .isDirectory
  | .link _ => .error .tooManyLinks

/-- Something met on a walk through a directory: a file with the names that lead to it, or a
directory that cannot be listed because its path is too long. Links are passed over. -/
inductive Found where
  | file (path : Path) (names : List String)
  | unlistable (path : Path)
deriving DecidableEq

mutual

/-- Walks through a node at a path that was reached over names given in reverse. -/
def walkNode (path : Path) (names : List String) : Node → List Found
  | .file _ => [.file path names.reverse]
  | .link _ => []
  | .directory entries =>
    if pathLimit < path.byteSize then [.unlistable path] else walkEntries path names entries

/-- Walks through the entries of a directory. -/
def walkEntries (path : Path) (names : List String) : List (String × Node) → List Found
  | [] => []
  | (name, node) :: rest =>
    walkNode (path.join ⟨name⟩) (name :: names) node ++ walkEntries path names rest

end

/-- Walks through the directory that a path leads to, if it leads to one. -/
def walk (top : Node) (root : Path) : Option (List Found) :=
  match resolve top root with
  | .ok (.directory entries) => some (walkEntries root [] entries)
  | _ => none

end ImplementorIndex.Files
