import ImplementorIndex.Entry
import ImplementorIndex.Rows

/-!
# Groups of entries by namespace

The entries of one trait, grouped by the namespace that contributed them. Each namespace occurs once
and keeps the place where it was first seen; a later list for it replaces the earlier one in place.
-/

namespace ImplementorIndex

/-- Entry lists by namespace, in order of first arrival. -/
structure Groups where
  rows : List (Namespace × List Entry)
  distinct : (Rows.keys rows).Nodup
deriving DecidableEq

namespace Groups

def empty : Groups := ⟨[], by simp⟩

instance : Inhabited Groups := ⟨empty⟩

/-- Writes the list of a namespace: in place when the namespace is known, at the end otherwise. -/
def insert (groups : Groups) (name : Namespace) (entries : List Entry) : Groups :=
  ⟨Rows.put name entries groups.rows, Rows.nodup_keys_put groups.distinct name entries⟩

def insertAll (groups : Groups) (rows : List (Namespace × List Entry)) : Groups :=
  rows.foldl (fun groups row => groups.insert row.1 row.2) groups

/-- The groups that a sequence of lists leaves, starting from none. -/
def ofList (rows : List (Namespace × List Entry)) : Groups := empty.insertAll rows

def get? (groups : Groups) (name : Namespace) : Option (List Entry) := Rows.find? name groups.rows

def names (groups : Groups) : List Namespace := Rows.keys groups.rows

def namespaceCount (groups : Groups) : Nat := groups.rows.length

/-- All entries, group after group. -/
def entries (groups : Groups) : List Entry := groups.rows.flatMap Prod.snd

def entryCount (groups : Groups) : Nat :=
  groups.rows.foldr (fun row count => row.2.length + count) 0

/-- There are no groups; groups that are all empty do not count as none. -/
def isEmpty (groups : Groups) : Bool := groups.rows.isEmpty

/-- Two tables hold the same lists under the same namespaces, in whatever order. -/
def sameContent (a b : Groups) : Bool :=
  a.namespaceCount == b.namespaceCount && a.rows.all fun row => b.get? row.1 == some row.2

def inspect (groups : Groups) : String :=
  Text.inspectTable (groups.rows.map fun row =>
    (row.1.inspect, Text.inspectList (row.2.map Entry.inspect)))

@[simp] theorem rows_empty : empty.rows = [] := rfl

@[simp] theorem rows_insert (groups : Groups) (name : Namespace) (entries : List Entry) :
    (groups.insert name entries).rows = Rows.put name entries groups.rows := rfl

theorem rows_insertAll (groups : Groups) (rows : List (Namespace × List Entry)) :
    (groups.insertAll rows).rows =
      rows.foldl (fun rows row => Rows.put row.1 row.2 rows) groups.rows := by
  unfold insertAll
  induction rows generalizing groups with
  | nil => rfl
  | cons row rows ih => exact ih (groups.insert row.1 row.2)

theorem rows_ofList (rows : List (Namespace × List Entry)) : (ofList rows).rows = Rows.ofList rows := by
  rw [ofList, rows_insertAll]
  rfl

/-- Groups written one after the other into none are the groups themselves. -/
theorem ofList_rows (groups : Groups) : ofList groups.rows = groups := by
  have same : (ofList groups.rows).rows = groups.rows := by
    rw [ofList, rows_insertAll]
    exact Rows.foldl_put_of_nodup groups.distinct
  cases h : ofList groups.rows
  rw [h] at same
  cases groups
  cases same
  rfl

@[simp] theorem get?_insert (groups : Groups) (name other : Namespace) (entries : List Entry) :
    (groups.insert name entries).get? other =
      if name = other then some entries else groups.get? other := by
  simp [get?, Rows.find?_put]

theorem names_insert (groups : Groups) (name : Namespace) (entries : List Entry) :
    (groups.insert name entries).names =
      if name ∈ groups.names then groups.names else groups.names ++ [name] :=
  Rows.keys_put name entries groups.rows

/-- The entries counted group by group are the entries listed. -/
theorem entryCount_eq_length (groups : Groups) : groups.entryCount = groups.entries.length := by
  unfold entryCount entries
  induction groups.rows with
  | nil => rfl
  | cons row rows ih => simp [ih]

end Groups

end ImplementorIndex
