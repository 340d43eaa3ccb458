import ImplementorIndex.Name

/-!
# Entries

One entry is one type's implementation of a trait: markup that is shown as it is, and perhaps a
label that says where the implementation stands. A missing label differs from an empty one.
-/

namespace ImplementorIndex

/-- One implementor of a trait. -/
structure Entry where
  markup : String
  label : Option String := none
deriving DecidableEq, Inhabited

namespace Entry

def withLabel (entry : Entry) (label : String) : Entry := { entry with label := some label }

def inspect (entry : Entry) : String :=
  Text.inspectRecord "ImplementorEntry"
    [("markup", Text.quoted entry.markup),
     ("source_label", Text.inspectOption (entry.label.map Text.quoted))]

end Entry

end ImplementorIndex
