import ImplementorIndex.Rows
import ImplementorIndex.Toml.Value

/-!
# Building TOML documents

A document is put together from statements: headers that open tables, and pairs that write into the
table opened last. A table is opened once; tables that a header only passes through may be opened
later, those that a pair makes on its way may be written to by other pairs and not be opened. A
value that is written stays as it is.
-/

namespace ImplementorIndex.Toml

/-- How a table came about. -/
inductive Origin where
  /-- passed through by a header -/
  | passed
  /-- opened by a header -/
  | opened
  /-- made by a pair on its way -/
  | dotted
deriving DecidableEq

inductive Part where
  /-- a value, which is complete -/
  | value (value : Value)
  /-- a table that may still grow -/
  | table (origin : Origin) (rows : List (String × Part))
  /-- a list of tables, the last of which may still grow; it stands apart -/
  | tables (done : List (List (String × Part))) (last : List (String × Part))

inductive Statement where
  /-- opens the table at a path -/
  | openTable (path : List String)
  /-- adds a table to the list at a path and opens it -/
  | appendTable (path : List String)
  /-- writes a value at a path from the open table -/
  | pair (path : List String) (value : Value)

/-- Changes the table at a path below a table, through tables and lists of tables. Missing tables
are made with the given origin. -/
def within (origin : Origin) (change : List (String × Part) → Option (List (String × Part))) :
    List String → List (String × Part) → Option (List (String × Part))
  | [], rows => change rows
  | key :: rest, rows =>
    match Rows.find? key rows with
    | none =>
      (within origin change rest []).map fun below => Rows.put key (.table origin below) rows
    | some (.table found below) =>
      if origin = .dotted && found = .opened then none
      else (within origin change rest below).map fun below => Rows.put key (.table found below) rows
    | some (.tables done last) =>
      if origin = .dotted then none
      else (within origin change rest last).map fun last => Rows.put key (.tables done last) rows
    | some (.value _) => none

def openRow (key : String) (rows : List (String × Part)) : Option (List (String × Part)) :=
  match Rows.find? key rows with
  | none => some (Rows.put key (.table .opened []) rows)
  | some (.table .passed below) => some (Rows.put key (.table .opened below) rows)
  | some _ => none

def appendRow (key : String) (rows : List (String × Part)) : Option (List (String × Part)) :=
  match Rows.find? key rows with
  | none => some (Rows.put key (.tables [] []) rows)
  | some (.tables done last) => some (Rows.put key (.tables (done ++ [last]) []) rows)
  | some _ => none

/-- Writes a value under a key that has none. -/
def writeRow (key : String) (value : Value) (rows : List (String × Part)) :
    Option (List (String × Part)) :=
  match Rows.find? key rows with
  | none => some (Rows.put key (.value value) rows)
  | some _ => none

/-- Applies a change under the last key of a path, in the table that the others lead to. -/
def atPath (origin : Origin)
    (change : String → List (String × Part) → Option (List (String × Part)))
    (path : List String) (rows : List (String × Part)) : Option (List (String × Part)) :=
  match path.getLast? with
  | none => none
  | some key => within origin (change key) path.dropLast rows

/-- A document under construction, with the path of the table opened last. -/
structure Draft where
  rows : List (String × Part) := []
  current : List String := []

def Draft.add (draft : Draft) : Statement → Option Draft
  | .openTable path => (atPath .passed openRow path draft.rows).map fun rows => ⟨rows, path⟩
  | .appendTable path => (atPath .passed appendRow path draft.rows).map fun rows => ⟨rows, path⟩
  | .pair path value =>
    let write := atPath .dotted (fun key rows => writeRow key value rows) path
    (within .passed write draft.current draft.rows).map fun rows => { draft with rows := rows }

mutual

/-- The value that a part stands for once it is complete. -/
def Part.finish : Part → Value
  | .value value => value
  | .table _ rows => .table (finishRows rows)
  | .tables done last => .array (finishTables done ++ [.table (finishRows last)])

def finishRows : List (String × Part) → List (String × Value)
  | [] => []
  | (key, part) :: rest => (key, part.finish) :: finishRows rest

def finishTables : List (List (String × Part)) → List Value
  | [] => []
  | rows :: rest => .table (finishRows rows) :: finishTables rest

end

/-- The table that a list of pairs written one after the other stands for. -/
def tableOfPairs (pairs : List (List String × Value)) : Option (List (String × Value)) :=
  let add (draft : Draft) (pair : List String × Value) := draft.add (.pair pair.1 pair.2)
  (pairs.foldlM add {}).map fun draft => finishRows draft.rows

def tableOfStatements (statements : List Statement) : Option (List (String × Value)) :=
  (statements.foldlM Draft.add {}).map fun draft => finishRows draft.rows

end ImplementorIndex.Toml
