import ImplementorIndex.Name

/-!
# Malformed fragments

The ways in which the text of a fragment can fail to be one, and the wording for each. The JSON
reader does not say what it stumbled over, so the texts that quote it hold a fixed remark.
-/

namespace ImplementorIndex.Fragment

inductive Malformed where
  /-- The text looks like JSON and is not. -/
  | invalidJson
  /-- The text looks like JSON and is not an object. -/
  | notObject
  /-- The script never mentions the table of implementors. -/
  | noTable
  /-- The key of an assignment is not a string literal. -/
  | keyNotLiteral
  /-- The key of an assignment does not end. -/
  | keyUnterminated
  /-- The key of an assignment is not a JSON string. -/
  | keyInvalid (literal : String)
  /-- The key is not followed by a closing bracket and an equals sign. -/
  | assignmentExpected (name : Namespace)
  /-- The value of an assignment does not end. -/
  | listUnterminated
  /-- The value of a namespace is not a list. -/
  | notList (name : Namespace)
  /-- The list of a namespace holds nothing but a comma. -/
  | loneHole (name : Namespace)
  /-- The list of a namespace is not JSON. -/
  | listInvalid (name : Namespace)
  /-- An item of the list of a namespace is not an entry. -/
  | notEntry (position : Nat) (name : Namespace)
deriving DecidableEq

namespace Malformed

/-- What stands for the report of the JSON reader. -/
def jsonRemark : String := "<json error>"

def reason : Malformed → String
  | invalidJson => "invalid JSON fragment: " ++ jsonRemark
  | notObject => "top-level JSON value is not an object"
  | noTable => "no implementors table in fragment"
  | keyNotLiteral => "namespace key is not a string literal"
  | keyUnterminated => "unterminated namespace literal"
  | keyInvalid literal => "bad namespace literal " ++ literal ++ ": " ++ jsonRemark
  | assignmentExpected name => "expected `] =` after namespace " ++ Text.quoted name.text
  | listUnterminated => "unterminated implementor list"
  | notList name => "value for namespace " ++ Text.quoted name.text ++ " is not an array"
  | loneHole name => "list for namespace " ++ Text.quoted name.text ++ " is a lone hole"
  | listInvalid name =>
    "invalid list for namespace " ++ Text.quoted name.text ++ ": " ++ jsonRemark
  | notEntry position name =>
    "entry " ++ toString position ++ " of namespace " ++ Text.quoted name.text ++ " is not a snippet"

def message (problem : Malformed) : String := "malformed implementor payload: " ++ problem.reason

end Malformed

end ImplementorIndex.Fragment
