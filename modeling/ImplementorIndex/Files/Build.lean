import ImplementorIndex.Files.Lookup

/-!
# Building file trees

Nodes are put at paths one after the other. Directories that are missing on the way are made, and
links on the way are followed. A file is also written through a link, where one stands at its path.
-/

namespace ImplementorIndex.Files.Node

/-- Changes what stands at a place below a node, making directories on the way. -/
def alter (change : Option Node → Node) : List String → Option Node → Node
  | [], node => change node
  | name :: rest, some (.directory entries) =>
    .directory (Rows.put name (alter change rest (Rows.find? name entries)) entries)
  | name :: rest, _ => .directory [(name, alter change rest none)]

def setAt (tree : Node) (place : List String) (node : Node) : Node :=
  alter (fun _ => node) place.reverse (some tree)

/-- Goes along parts from a place, given as names in reverse, and makes the directories that are
missing. Gives the tree and the place arrived at. -/
def reach (tree : Node) (links : Nat) (place : List String) (parts : List String) :
    Node × List String :=
  match parts with
  | [] => (tree, place)
  | part :: rest =>
    if part = "." then reach tree links place rest
    else if part = ".." then reach tree links place.tail rest
    else
      match nodeAt? (part :: place).reverse tree with
      | none => reach (tree.setAt (part :: place) empty) links (part :: place) rest
      | some (.link target) =>
        match links with
        | 0 => (tree, place)
        | links + 1 => reach tree links place (partsOf target ++ rest)
      | some _ => reach tree links (part :: place) rest
termination_by (links, parts.length)

/-- Puts a node at the end of the parts from a place. A file goes through a link that stands there,
with so many links at most. -/
def putFrom (node : Node) : Nat → Node → List String → List String → Node
  | links, tree, place, parts =>
    match parts.getLast? with
    | none => tree
    | some name =>
      let (tree, place) := tree.reach linkLimit place parts.dropLast
      match node, nodeAt? (name :: place).reverse tree, links with
      | .file _, some (.link target), links + 1 =>
        putFrom node links tree place (partsOf target)
      | _, _, _ => tree.setAt (name :: place) node

def put (tree : Node) (path : Path) (node : Node) : Node :=
  putFrom node linkLimit tree [] (partsOf path)

def makeDirectory (tree : Node) (path : Path) : Node :=
  (tree.reach linkLimit [] (partsOf path)).1

/-- So many directories of one name, nested in one another below a path, with files in the
innermost. -/
def putChain (tree : Node) (path : Path) (depth : Nat) (name : String)
    (files : List (String × ByteArray)) : Node :=
  let (tree, place) := tree.reach linkLimit [] (partsOf path)
  let place := List.replicate depth name ++ place
  let bottom := alter (fun found => found.getD empty) place.reverse (some tree)
  files.foldl (fun tree file => tree.setAt (file.1 :: place) (.file file.2)) bottom

end ImplementorIndex.Files.Node
