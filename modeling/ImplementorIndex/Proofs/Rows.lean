import ImplementorIndex.Rows
import Mathlib.Data.List.Induction

/-!
# What a sequence of writes leaves

Rows written one after the other have their keys in order of first arrival, and a read sees the last
value written under its key. Both are said here of the list of writes itself: the keys without their
later repetitions, and the first row of the reversed list.
-/

namespace ImplementorIndex.Rows

universe u v

variable {κ : Type u} {α : Type v} [DecidableEq κ]

theorem eraseDups_concat (list : List κ) (key : κ) :
    (list ++ [key]).eraseDups =
      if key ∈ list then list.eraseDups else list.eraseDups ++ [key] := by
  rw [List.eraseDups_append]
  by_cases known : key ∈ list
  · simp [List.removeAll, known]
  · simp [List.removeAll, known, List.eraseDups_cons]

omit [DecidableEq κ] in
@[simp] theorem keys_append (rows more : List (κ × α)) :
    keys (rows ++ more) = keys rows ++ keys more :=
  List.map_append

theorem ofList_concat (writes : List (κ × α)) (row : κ × α) :
    ofList (writes ++ [row]) = put row.1 row.2 (ofList writes) := by
  rw [ofList, List.foldl_append]
  rfl

/-- The keys stand in order of first arrival. -/
theorem keys_ofList (writes : List (κ × α)) : keys (ofList writes) = (keys writes).eraseDups := by
  induction writes using List.reverseRecOn with
  | nil => rfl
  | append_singleton writes row ih =>
    rw [ofList_concat, keys_put, keys_append, keys_cons, keys_nil, eraseDups_concat, ih]
    simp only [List.mem_eraseDups]

theorem nodup_keys_ofList (writes : List (κ × α)) : (keys (ofList writes)).Nodup := by
  induction writes using List.reverseRecOn with
  | nil => simp [ofList]
  | append_singleton writes row ih =>
    rw [ofList_concat]
    exact nodup_keys_put ih row.1 row.2

theorem find?_append (key : κ) (rows more : List (κ × α)) :
    find? key (rows ++ more) = (find? key rows).or (find? key more) := by
  induction rows with
  | nil => rfl
  | cons row rows ih =>
    by_cases here : row.1 = key
    · simp [find?, here]
    · simp [find?, here, ih]

/-- A read sees the last value written under its key. -/
theorem find?_ofList (key : κ) (writes : List (κ × α)) :
    find? key (ofList writes) = find? key writes.reverse := by
  induction writes using List.reverseRecOn with
  | nil => rfl
  | append_singleton writes row ih =>
    rw [ofList_concat, find?_put, ih, List.reverse_append, List.reverse_singleton,
      List.singleton_append, find?]

theorem mem_of_find? {key : κ} {value : α} {rows : List (κ × α)}
    (h : find? key rows = some value) : (key, value) ∈ rows := by
  induction rows with
  | nil => simp [find?] at h
  | cons row rows ih =>
    rw [find?] at h
    split at h
    · rename_i here
      obtain rfl := Option.some.inj h
      exact List.mem_cons.mpr (.inl (by rw [← here]))
    · exact List.mem_cons_of_mem row (ih h)

theorem find?_eq_some_iff {rows : List (κ × α)} (distinct : (keys rows).Nodup) {key : κ}
    {value : α} : find? key rows = some value ↔ (key, value) ∈ rows := by
  constructor
  · exact mem_of_find?
  · intro member
    induction rows with
    | nil => simp at member
    | cons row rows ih =>
      rw [keys_cons, List.nodup_cons] at distinct
      rcases List.mem_cons.mp member with rfl | later
      · simp [find?]
      · have apart : row.1 ≠ key := by
          rintro rfl
          exact distinct.1 (List.mem_map.mpr ⟨_, later, rfl⟩)
        rw [find?, if_neg apart]
        exact ih distinct.2 later

/-- Where each key has one row, the order of the rows does not matter to a read. -/
theorem find?_reverse {rows : List (κ × α)} (distinct : (keys rows).Nodup) (key : κ) :
    find? key rows.reverse = find? key rows := by
  have turned : (keys rows.reverse).Nodup := by
    rw [keys, List.map_reverse]
    exact (List.reverse_perm (keys rows)).nodup_iff.mpr distinct
  ext value
  rw [find?_eq_some_iff turned, find?_eq_some_iff distinct, List.mem_reverse]

/-- Where each key has one row, the rows are made up of their keys and what a read finds there. -/
theorem eq_map_keys {rows : List (κ × α)} (distinct : (keys rows).Nodup) (other : α) :
    rows = (keys rows).map fun key => (key, (find? key rows).getD other) := by
  rw [keys, List.map_map]
  symm
  calc rows.map ((fun key => (key, (find? key rows).getD other)) ∘ Prod.fst)
      = rows.map id := by
        apply List.map_congr_left
        rintro ⟨key, value⟩ member
        have found := (find?_eq_some_iff distinct).mpr member
        simp [found]
    _ = rows := List.map_id rows

/-- Rows whose keys are apart are told apart by their keys in order and by what a read finds. -/
theorem eq_of_keys_of_find? {rows more : List (κ × α)} (distinct : (keys rows).Nodup)
    (distinct' : (keys more).Nodup) (sameKeys : keys rows = keys more)
    (sameValues : ∀ key, find? key rows = find? key more) : rows = more := by
  cases rows with
  | nil => exact (List.map_eq_nil_iff.mp sameKeys.symm).symm
  | cons row rows =>
    rw [eq_map_keys distinct row.2, eq_map_keys distinct' row.2, sameKeys]
    simp only [sameValues]

theorem ofList_congr {writes others : List (κ × α)}
    (sameKeys : (keys writes).eraseDups = (keys others).eraseDups)
    (sameLast : ∀ key, find? key writes.reverse = find? key others.reverse) :
    ofList writes = ofList others := by
  apply eq_of_keys_of_find? (nodup_keys_ofList writes) (nodup_keys_ofList others)
  · rw [keys_ofList, keys_ofList, sameKeys]
  · intro key
    rw [find?_ofList, find?_ofList, sameLast]

/-- Writing the last writes once more changes nothing: their keys have a place, and under each of them
the last value is written last again. -/
theorem ofList_append_of_suffix {writes again : List (κ × α)} (suffix : again <:+ writes) :
    ofList (writes ++ again) = ofList writes := by
  apply ofList_congr
  · have known : (keys again).removeAll (keys writes) = [] := by
      simp only [List.removeAll, List.filter_eq_nil_iff]
      intro key member
      have place : key ∈ keys writes := (suffix.map Prod.fst).subset member
      simp [place]
    rw [keys_append, List.eraseDups_append, known, List.eraseDups_nil, List.append_nil]
  · intro key
    obtain ⟨front, rfl⟩ := suffix
    simp only [List.reverse_append, find?_append, ← Option.or_assoc, Option.or_self]

theorem eraseDups_append_eraseDups (list more : List κ) :
    (list ++ more.eraseDups).eraseDups = (list ++ more).eraseDups := by
  induction more using List.reverseRecOn with
  | nil => rfl
  | append_singleton more key ih =>
    rw [eraseDups_concat, ← List.append_assoc list more, eraseDups_concat]
    by_cases known : key ∈ more
    · rw [if_pos known, if_pos (List.mem_append_right list known), ih]
    · rw [if_neg known, ← List.append_assoc, eraseDups_concat, ih]
      simp only [List.mem_append, List.mem_eraseDups]

/-- Writes that were first brought into rows of their own leave what they leave one by one. -/
theorem ofList_append_ofList (rows writes : List (κ × α)) :
    ofList (rows ++ ofList writes) = ofList (rows ++ writes) := by
  apply ofList_congr
  · rw [keys_append, keys_append, keys_ofList, eraseDups_append_eraseDups]
  · intro key
    rw [List.reverse_append, List.reverse_append, find?_append, find?_append,
      find?_reverse (nodup_keys_ofList writes), find?_ofList]

end ImplementorIndex.Rows
