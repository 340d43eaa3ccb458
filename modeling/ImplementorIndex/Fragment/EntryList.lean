import ImplementorIndex.Fragment.Malformed
import ImplementorIndex.Json.Reader
import ImplementorIndex.Json.Writer
import ImplementorIndex.Payload
import ImplementorIndex.Text.Blank

/-!
# Entry lists as JSON

An entry stands in a fragment as a string, its markup, or as a record with its markup and perhaps a
label. A list of entries is an array of these; in a script the array may have one comma behind its
last item. Nothing of a list is kept when one item of it is not an entry.
-/

namespace ImplementorIndex.Fragment

open Json (Value)

def markupName : String := "markup"

def labelName : String := "source_label"

/-- The entry that a value stands for. A record may hold other members, which do not count, and a
label that is null is no label. -/
def entryOf? : Value → Option Entry
  | .string markup => some { markup := markup }
  | .object members =>
    match Rows.find? markupName members with
    | some (.string markup) =>
      match Rows.find? labelName members with
      | none => some { markup := markup }
      | some .null => some { markup := markup }
      | some (.string label) => some { markup := markup, label := some label }
      | some _ => none
    | _ => none
  | _ => none

def valueOf (entry : Entry) : Value :=
  match entry.label with
  | none => .string entry.markup
  | some label => .object [(markupName, .string entry.markup), (labelName, .string label)]

/-- The entries that the items of an array stand for, given the position of the first. -/
def entriesFrom (name : Namespace) (position : Nat) : List Value → Except Malformed (List Entry)
  | [] => .ok []
  | item :: rest => do
    match entryOf? item with
    | none => .error (.notEntry position name)
    | some entry => return entry :: (← entriesFrom name (position + 1) rest)

def entriesOf (name : Namespace) : Value → Except Malformed (List Entry)
  | .array items => entriesFrom name 0 items
  | _ => .error (.notList name)

/-- The text between the brackets of a list literal. -/
def stripBrackets? : List Char → Option (List Char)
  | '[' :: rest => if rest.getLast? = some ']' then some rest.dropLast else none
  | _ => none

/-- Reads an array literal, with or without one comma behind its last item. -/
def readListLiteral (name : Namespace) (expression : List Char) : Except Malformed Value :=
  match stripBrackets? (Text.trim expression) with
  | none => .error (.notList name)
  | some body =>
    let body := Text.trimEnd body
    let readBody (body : List Char) : Except Malformed Value :=
      match Json.read ('[' :: body ++ [']']) with
      | some value => .ok value
      | none => .error (.listInvalid name)
    if body.getLast? = some ',' then
      if Text.trim body.dropLast = [] then .error (.loneHole name) else readBody body.dropLast
    else readBody body

end ImplementorIndex.Fragment
