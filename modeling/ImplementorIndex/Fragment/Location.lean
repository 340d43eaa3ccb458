import ImplementorIndex.Path
import ImplementorIndex.Text.Word

/-!
# Where fragments stand

The fragment of a trait stands below the root of a fragment tree at a path that spells its key: a
directory for each segment but the last, and a file named after the last. The mapping is not one to
one: segments that are empty, hold a slash or are made of dots do not come back. A path with a name
that is no text has no key.
-/

namespace ImplementorIndex

def fragmentStart : String := "trait."

def fragmentEnding : String := ".js"

/-- The names of a path that goes only downwards; dots at the front do not count. -/
def Path.namesOf? : List Component → Option (List String)
  | [] => some []
  | .name text :: rest => (namesOf? rest).map (text :: ·)
  | .current :: rest => namesOf? rest
  | .root :: _ => none
  | .parent :: _ => none

def traitName? (file : String) : Option String :=
  match (Text.stripWord? fragmentStart.toList file.toList).bind
      (Text.stripEnding? fragmentEnding.toList) with
  | none => none
  | some [] => none
  | some name => some (String.ofList name)

namespace TraitKey

def ofSegments (segments : List String) : TraitKey := ⟨"::".intercalate segments⟩

/-- The key of the fragment that stands below at least one directory at the given names. -/
def ofNames? (names : List String) : Option TraitKey :=
  match names.dropLast, names.getLast? with
  | [], _ => none
  | _, none => none
  | directories, some file =>
    (traitName? file).map fun name => ofSegments (directories ++ [name])

/-- The key of the fragment at a path relative to the root of its tree. -/
def ofPath? (path : Path) : Option TraitKey := (Path.namesOf? path.components).bind ofNames?

/-- The key of the fragment at a path given as bytes. A path that is no text has none. -/
def ofPathBytes? (path : ByteArray) : Option TraitKey :=
  (String.fromUTF8? path).bind fun text => ofPath? ⟨text⟩

/-- The path of the fragment of a trait, relative to the root of its tree. -/
def fragmentPath (key : TraitKey) : Path :=
  let directories := key.segments.dropLast
  let name := key.segments.getLast?.getD ""
  let directory := directories.foldl (fun (path : Path) segment => path.join ⟨segment⟩) ⟨""⟩
  directory.join ⟨fragmentStart ++ name ++ fragmentEnding⟩

end TraitKey

end ImplementorIndex
