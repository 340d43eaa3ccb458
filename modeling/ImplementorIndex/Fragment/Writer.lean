import ImplementorIndex.Fragment.EntryList

/-!
# Writing fragments

A payload is written in script form: a function that fills the table of implementors, one
assignment a line, and then hands the table to the page, or leaves it where the page will look for
it when the page is not ready.
-/

namespace ImplementorIndex.Fragment

/-- The line that opens the script. -/
def opening : String := "(function() \x7bvar implementors = \x7b\x7d;\n"

/-- The lines that hand the table over. -/
def closing : String :=
  "if (window.register_implementors) \x7b\n" ++
  "    window.register_implementors(implementors);\n" ++
  "\x7d else \x7b\n" ++
  "    window.pending_implementors = implementors;\n" ++
  "\x7d\n" ++
  "\x7d)()\n"

def assignmentLine (row : Namespace × List Entry) : String :=
  "implementors[" ++ String.ofList (Json.writeString row.1.text) ++ "] = " ++
    String.ofList (Json.Value.array (row.2.map valueOf)).write ++ ";\n"

def encode (payload : Payload) : String :=
  opening ++ String.join (payload.groups.rows.map assignmentLine) ++ closing

end ImplementorIndex.Fragment
