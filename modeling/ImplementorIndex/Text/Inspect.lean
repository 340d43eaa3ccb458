import ImplementorIndex.Text.Quoted

/-!
# Inspection forms

The one-line forms in which diagnostics show structured values: records with named fields, variants
with one argument, lists, tables and optional values. Texts inside are quoted.
-/

namespace ImplementorIndex.Text

/-- The parts of a list form, separated by a comma and a space. -/
def commaSeparated (parts : List String) : String := ", ".intercalate parts

def inspectRecord (name : String) (fields : List (String × String)) : String :=
  name ++ " \x7b " ++ commaSeparated (fields.map fun field => field.1 ++ ": " ++ field.2) ++ " \x7d"

def inspectVariant (name argument : String) : String := name ++ "(" ++ argument ++ ")"

def inspectList (parts : List String) : String := "[" ++ commaSeparated parts ++ "]"

def inspectTable (rows : List (String × String)) : String :=
  "\x7b" ++ commaSeparated (rows.map fun row => row.1 ++ ": " ++ row.2) ++ "\x7d"

def inspectOption : Option String → String
  | none => "None"
  | some form => inspectVariant "Some" form

end ImplementorIndex.Text
