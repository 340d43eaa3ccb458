import ImplementorIndex.Name

/-!
# Paths

A path is a text whose parts are separated by slashes. Its components are what the parts amount to:
empty parts and single dots fall away, except for a dot at the very front, and a slash at the front
is a component of its own. Paths are joined as texts and compared by their components.

A path is a text here, and so is each of its names. Paths whose bytes spell no text cannot be said;
`TraitKey.ofPathBytes?` is what becomes of them.
-/

namespace ImplementorIndex

structure Path where
  text : String
deriving DecidableEq, Inhabited

inductive Component where
  /-- the root of all directories -/
  | root
  /-- a dot at the front -/
  | current
  /-- two dots: the directory above -/
  | parent
  /-- anything else -/
  | name (text : String)
deriving DecidableEq

def splitSlash : List Char → List (List Char)
  | [] => [[]]
  | c :: rest => if c = '/' then [] :: splitSlash rest else consFirst c (splitSlash rest)

namespace Component

/-- The component that a part amounts to, if to any. -/
def ofPart? (part : List Char) : Option Component :=
  if part = [] then none
  else if part = ['.'] then none
  else if part = ['.', '.'] then some .parent
  else some (.name (String.ofList part))

def rank : Component → Nat
  | root => 0
  | current => 1
  | parent => 2
  | name _ => 3

/-- Components are ordered by kind, and names by their encoded bytes. -/
instance : Ord Component where
  compare a b :=
    match a, b with
    | name a, name b => compare a b
    | a, b => compare a.rank b.rank

end Component

namespace Path

/-- The component at the front that the parts do not show. -/
def front : List (List Char) → List Component
  | [] :: _ :: _ => [.root]
  | ['.'] :: _ => [.current]
  | _ => []

def components (path : Path) : List Component :=
  let parts := splitSlash path.text.toList
  front parts ++ parts.filterMap Component.ofPart?

def isAbsolute (path : Path) : Bool := path.text.toList.head? = some '/'

/-- Joins a path to another. A path that starts at the root replaces the other; otherwise one slash
separates them, unless the first is empty or ends with a slash already. -/
def join (path next : Path) : Path :=
  if next.isAbsolute then next
  else
    match path.text.toList.getLast? with
    | none => next
    | some '/' => ⟨path.text ++ next.text⟩
    | some _ => ⟨path.text ++ "/" ++ next.text⟩

/-- Compares two lists of components, the first difference deciding. -/
def compareComponents : List Component → List Component → Ordering
  | [], [] => .eq
  | [], _ :: _ => .lt
  | _ :: _, [] => .gt
  | a :: as, b :: bs => (compare a b).then (compareComponents as bs)

/-- Paths are ordered by their components. -/
instance : Ord Path where
  compare a b := compareComponents a.components b.components

/-- The paths have the same components, however they are written. -/
def alike (a b : Path) : Bool := a.components = b.components

def byteSize (path : Path) : Nat := path.text.utf8ByteSize

end Path

end ImplementorIndex
