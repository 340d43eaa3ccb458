import ImplementorIndex.Event
import ImplementorIndex.Failure
import ImplementorIndex.Files.Lookup
import ImplementorIndex.Section
import ImplementorIndex.Toml.Reader

/-!
# Configuration

A configuration names the root of the fragment tree and the wording of the page. It is read from a
TOML document with two tables, both of which, and all of whose keys, may be missing; unknown keys
are refused. A table may also be written as the list of its values in the order of its keys.
-/

namespace ImplementorIndex

open Toml (Value)

structure Config where
  root : Path := ⟨"implementors"⟩
  page : RenderOptions := {}
deriving DecidableEq

namespace Config

def defaultFile : Path := ⟨"implidx.toml"⟩

/-- The settings are those that hold without a configuration. The root may be written differently. -/
def isDefault (config : Config) : Bool :=
  config.root.alike ({} : Config).root && config.page = ({} : Config).page

/-- The values of a table by key, if all its keys are known. -/
def fieldsOf? (known : List String) : Value → Option (List (String × Value))
  | .table rows => if rows.all fun row => known.contains row.1 then some rows else none
  | .array items => some (known.zip items)
  | _ => none

def textOf? : Value → Option String
  | .string text => some text
  | _ => none

def textField? (fields : List (String × Value)) (key default : String) : Option String :=
  match Rows.find? key fields with
  | none => some default
  | some value => textOf? value

def optionalField? (fields : List (String × Value)) (key : String) : Option (Option String) :=
  match Rows.find? key fields with
  | none => some none
  | some value => (textOf? value).map some

def rootOf? (value : Value) : Option Path := do
  let fields ← fieldsOf? ["root"] value
  let root ← textField? fields "root" ({} : Config).root.text
  pure ⟨root⟩

def pageOf? (value : Value) : Option RenderOptions := do
  let fields ← fieldsOf? ["heading", "empty_text", "not_loaded_text", "skip_namespace"] value
  let defaults : RenderOptions := {}
  let heading ← textField? fields "heading" defaults.heading
  let emptyText ← textField? fields "empty_text" defaults.emptyText
  let notLoadedText ← textField? fields "not_loaded_text" defaults.notLoadedText
  let skip ← optionalField? fields "skip_namespace"
  pure
    { heading := heading
      emptyText := emptyText
      notLoadedText := notLoadedText
      skip := skip.map Namespace.mk }

def parse? (text : String) : Option Config := do
  let rows ← Toml.read text
  let fields ← fieldsOf? ["loader", "page"] (.table rows)
  let root ← match Rows.find? "loader" fields with
    | none => some ({} : Config).root
    | some value => rootOf? value
  let page ← match Rows.find? "page" fields with
    | none => some {}
    | some value => pageOf? value
  pure { root := root, page := page }

def loadFile (top : Files.Node) (path : Path) : Logged (Except Failure Config) := do
  match Files.readText top path with
  | .error cause => pure (.error (.configUnreadable path cause))
  | .ok text =>
    match parse? text with
    | none => pure (.error (.configInvalid path))
    | some config =>
      Logged.note (.configLoaded path.text)
      pure (.ok config)

/-- Reads the configuration: from the file that is named, which must be there, or from the default
file, if it is there. -/
def load (top : Files.Node) (path : Option Path) : Logged (Except Failure Config) :=
  match path with
  | some path => loadFile top path
  | none =>
    if Files.isFile top defaultFile then loadFile top defaultFile
    else ⟨.ok {}, [.configAbsent]⟩

end Config

end ImplementorIndex
