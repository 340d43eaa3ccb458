import ImplementorIndex.Payload

/-!
# Merging groups

A payload for a trait that is already known is folded into its groups. A namespace that is seen
again is a correction: its list replaces the earlier one and its place stays, so the order of the
groups does not depend on which fragment came last.
-/

namespace ImplementorIndex

/-- What a merge did: namespaces seen for the first time, and namespaces whose list was replaced. -/
structure MergeOutcome where
  added : Nat := 0
  replaced : Nat := 0
deriving DecidableEq

namespace Groups

def mergeRow (state : Groups × MergeOutcome) (row : Namespace × List Entry) :
    Groups × MergeOutcome :=
  let outcome :=
    if row.1 ∈ state.1.names then { state.2 with replaced := state.2.replaced + 1 }
    else { state.2 with added := state.2.added + 1 }
  (state.1.insert row.1 row.2, outcome)

/-- Folds the groups of a payload into the groups of a trait. -/
def merge (groups incoming : Groups) : Groups × MergeOutcome :=
  incoming.rows.foldl mergeRow (groups, {})

theorem fst_foldl_mergeRow (rows : List (Namespace × List Entry)) (state : Groups × MergeOutcome) :
    (rows.foldl mergeRow state).1 = state.1.insertAll rows := by
  induction rows generalizing state with
  | nil => rfl
  | cons row rest ih => simpa [insertAll, mergeRow] using ih (mergeRow state row)

/-- The counts aside, merging writes the incoming lists one after the other. -/
theorem fst_merge (groups incoming : Groups) :
    (groups.merge incoming).1 = groups.insertAll incoming.rows :=
  fst_foldl_mergeRow incoming.rows (groups, {})

end Groups

end ImplementorIndex
