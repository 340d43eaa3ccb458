import ImplementorIndex.Groups

/-!
# Payloads

A payload is what one fragment contributes: a trait key and the groups of entries for that trait.
-/

namespace ImplementorIndex

/-- The implementors that one fragment contributes to one trait. -/
structure Payload where
  traitKey : TraitKey
  groups : Groups
deriving DecidableEq, Inhabited

namespace Payload

/-- The payload of a trait with the groups that a sequence of lists leaves. -/
def ofGroups (key : TraitKey) (rows : List (Namespace × List Entry)) : Payload :=
  ⟨key, Groups.ofList rows⟩

def withGroup (payload : Payload) (name : Namespace) (entries : List Entry) : Payload :=
  { payload with groups := payload.groups.insert name entries }

/-- Two payloads are alike when they have the same trait and the same lists; the order of the
namespaces does not count. -/
def alike (a b : Payload) : Bool := a.traitKey == b.traitKey && a.groups.sameContent b.groups

def inspect (payload : Payload) : String :=
  Text.inspectRecord "ImplementorPayload"
    [("trait_key", payload.traitKey.inspect), ("groups", payload.groups.inspect)]

end Payload

theorem foldl_withGroup (key : TraitKey) (groups : Groups) (rows : List (Namespace × List Entry)) :
    rows.foldl (fun payload row => payload.withGroup row.1 row.2) (⟨key, groups⟩ : Payload) =
      ⟨key, groups.insertAll rows⟩ := by
  induction rows generalizing groups with
  | nil => rfl
  | cons row rows ih => exact ih (groups.insert row.1 row.2)

end ImplementorIndex
