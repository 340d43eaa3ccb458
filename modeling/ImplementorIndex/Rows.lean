/-!
# Rows in order of first arrival

A list of keyed rows in which each key keeps the place where it first arrived. Writing to a key that
is present replaces its value in place; writing to a new key appends a row. The structure types that
carry such rows (namespace groups, members of an object, known traits) are built on these functions.
-/

namespace ImplementorIndex.Rows

universe u v

variable {κ : Type u} {α : Type v}

def keys (rows : List (κ × α)) : List κ := rows.map Prod.fst

@[simp] theorem keys_nil : keys ([] : List (κ × α)) = [] := rfl

@[simp] theorem keys_cons (row : κ × α) (rows : List (κ × α)) :
    keys (row :: rows) = row.1 :: keys rows := rfl

variable [DecidableEq κ]

/-- Writes a value under a key: in place when the key has a row, at the end otherwise. -/
def put (key : κ) (value : α) : List (κ × α) → List (κ × α)
  | [] => [(key, value)]
  | row :: rest => if row.1 = key then (key, value) :: rest else row :: put key value rest

def ofList (writes : List (κ × α)) : List (κ × α) :=
  writes.foldl (fun rows row => put row.1 row.2 rows) []

/-- The value of the first row under a key. -/
def find? (key : κ) : List (κ × α) → Option α
  | [] => none
  | row :: rest => if row.1 = key then some row.2 else find? key rest

/-- Writing appends the key exactly when it had no row. -/
theorem keys_put (key : κ) (value : α) (rows : List (κ × α)) :
    keys (put key value rows) = if key ∈ keys rows then keys rows else keys rows ++ [key] := by
  induction rows with
  | nil => simp [put, keys]
  | cons row rest ih =>
    by_cases h : row.1 = key
    · simp [put, h]
    · have h' : key ≠ row.1 := fun e => h e.symm
      by_cases hm : key ∈ keys rest
      · simp [put, h, ih, hm]
      · simp [put, h, h', ih, hm]

theorem mem_keys_put {key k : κ} {value : α} {rows : List (κ × α)} :
    k ∈ keys (put key value rows) ↔ k = key ∨ k ∈ keys rows := by
  rw [keys_put]
  split
  · rename_i h
    constructor
    · exact Or.inr
    · rintro (rfl | hk)
      · exact h
      · exact hk
  · simp [or_comm]

theorem put_of_not_mem {key : κ} {rows : List (κ × α)} (h : key ∉ keys rows) (value : α) :
    put key value rows = rows ++ [(key, value)] := by
  induction rows with
  | nil => rfl
  | cons row rest ih =>
    rw [keys_cons, List.mem_cons, not_or] at h
    have ne : ¬ row.1 = key := fun e => h.1 e.symm
    simp [put, ne, ih h.2]

/-- Writing rows under keys that are new and apart appends them. -/
theorem foldl_put_of_nodup {rows writes : List (κ × α)} (h : (keys (rows ++ writes)).Nodup) :
    writes.foldl (fun rows row => put row.1 row.2 rows) rows = rows ++ writes := by
  induction writes generalizing rows with
  | nil => simp
  | cons row rest ih =>
    have fresh : row.1 ∉ keys rows := by
      intro hm
      have apart := (List.nodup_append.mp (by simpa [keys] using h)).2.2
      exact apart row.1 hm row.1 List.mem_cons_self rfl
    rw [List.foldl_cons, put_of_not_mem fresh, ih (by simpa using h)]
    simp

/-- Writing keeps the keys apart. -/
theorem nodup_keys_put {rows : List (κ × α)} (h : (keys rows).Nodup) (key : κ) (value : α) :
    (keys (put key value rows)).Nodup := by
  rw [keys_put]
  split
  · exact h
  · rename_i hm
    rw [List.nodup_append]
    refine ⟨h, by simp, ?_⟩
    intro a ha b hb
    rw [List.mem_singleton] at hb
    intro e
    exact hm (hb ▸ e ▸ ha)

/-- A read after a write sees the written value under its key and the earlier one elsewhere. -/
theorem find?_put (key k : κ) (value : α) (rows : List (κ × α)) :
    find? k (put key value rows) = if key = k then some value else find? k rows := by
  induction rows with
  | nil => simp [put, find?]
  | cons row rest ih =>
    by_cases h : row.1 = key
    · by_cases hk : key = k
      · simp [put, find?, h, hk]
      · simp [put, find?, h, hk]
    · by_cases hr : row.1 = k
      · have hk : ¬ key = k := fun e => h (hr.trans e.symm)
        have hk' : ¬ k = key := fun e => hk e.symm
        simp [put, find?, hr, hk, hk']
      · simp [put, find?, h, hr, ih]

/-- A key has a row exactly when a read finds something. -/
theorem find?_eq_none_iff {k : κ} {rows : List (κ × α)} : find? k rows = none ↔ k ∉ keys rows := by
  induction rows with
  | nil => simp [find?]
  | cons row rest ih =>
    by_cases h : row.1 = k
    · simp [find?, h]
    · have h' : k ≠ row.1 := fun e => h e.symm
      simp [find?, h, h', ih]

end ImplementorIndex.Rows
