import ImplementorIndex.Proofs.Page.Rendering
import ImplementorIndex.Proofs.Rows

/-!
# Merged groups and what is asked of them

What a page knows of a trait is a function of the payloads of that trait, in the order in which they
came. It is stated here without merging anything: the namespaces in order of first occurrence, and
for each namespace the list of the last payload that has one. The main statement says that every
answer of a page about a trait is read off this description, whatever else the page was told, and
that the counts reported by a merge are those of the namespaces it brought.
-/

namespace ImplementorIndex

/-- The namespaces that occur in payloads, each once, in order of first occurrence. -/
def firstSeen (payloads : List Payload) : List Namespace :=
  (payloads.flatMap fun payload => payload.groups.names).eraseDups

/-- The list of a namespace in the last payload that has one. -/
def latest (payloads : List Payload) (name : Namespace) : List Entry :=
  ((payloads.filterMap fun payload => payload.groups.get? name).getLast?).getD []

def mergedRows (payloads : List Payload) : List (Namespace × List Entry) :=
  (firstSeen payloads).map fun name => (name, latest payloads name)

namespace Groups

/-- The groups that payloads leave when they are merged in order, starting from none. -/
def mergeAll (payloads : List Payload) : Groups :=
  payloads.foldl (fun groups payload => (groups.merge payload.groups).1) .empty

theorem mergeAll_concat (payloads : List Payload) (payload : Payload) :
    mergeAll (payloads ++ [payload]) = ((mergeAll payloads).merge payload.groups).1 := by
  simp [mergeAll]

/-- Merging payloads writes all their rows one after the other. -/
theorem mergeAll_eq_ofList (payloads : List Payload) :
    mergeAll payloads = ofList (payloads.flatMap fun payload => payload.groups.rows) := by
  induction payloads using List.reverseRecOn with
  | nil => rfl
  | append_singleton payloads payload ih =>
    rw [mergeAll_concat, fst_merge, ih, List.flatMap_append, List.flatMap_singleton]
    simp [ofList, insertAll, List.foldl_append]

theorem names_mergeAll (payloads : List Payload) : (mergeAll payloads).names = firstSeen payloads := by
  rw [mergeAll_eq_ofList, names, rows_ofList, Rows.keys_ofList, Rows.keys, List.map_flatMap]
  rfl

theorem get?_mergeAll (payloads : List Payload) (name : Namespace) :
    (mergeAll payloads).get? name =
      (payloads.filterMap fun payload => payload.groups.get? name).getLast? := by
  rw [mergeAll_eq_ofList, get?, rows_ofList, Rows.find?_ofList]
  induction payloads using List.reverseRecOn with
  | nil => rfl
  | append_singleton payloads payload ih =>
    -- A payload has one list for a namespace, so reading its rows backwards finds the same list.
    have own := Rows.find?_reverse payload.groups.distinct name
    rw [List.flatMap_append, List.flatMap_singleton, List.reverse_append, Rows.find?_append, own, ih,
      List.filterMap_append, List.getLast?_append]
    change (payload.groups.get? name).or _ = _
    cases found : payload.groups.get? name with
    | none => simp [found]
    | some entries => simp [found]

theorem rows_mergeAll (payloads : List Payload) : (mergeAll payloads).rows = mergedRows payloads := by
  have rows := Rows.eq_map_keys (mergeAll payloads).distinct []
  rw [rows, mergedRows, ← names_mergeAll, names]
  apply List.map_congr_left
  intro name _
  rw [latest, ← get?_mergeAll, get?]

theorem length_names (groups : Groups) : groups.names.length = groups.namespaceCount :=
  List.length_map _

theorem namespaceCount_insert (groups : Groups) (name : Namespace) (entries : List Entry) :
    (groups.insert name entries).namespaceCount =
      if name ∈ groups.names then groups.namespaceCount else groups.namespaceCount + 1 := by
  rw [← length_names, names_insert]
  split
  · exact length_names groups
  · rw [List.length_append, List.length_singleton, length_names]

/-- A row is counted once, and it is counted as added exactly when it brings a new namespace. -/
theorem counts_mergeRow (state : Groups × MergeOutcome) (row : Namespace × List Entry) :
    (mergeRow state row).2.added + (mergeRow state row).2.replaced =
        state.2.added + state.2.replaced + 1 ∧
      (mergeRow state row).1.namespaceCount + state.2.added =
        state.1.namespaceCount + (mergeRow state row).2.added := by
  have size := namespaceCount_insert state.1 row.1 row.2
  unfold mergeRow
  by_cases known : row.1 ∈ state.1.names
  · simp only [known, if_true] at size ⊢
    omega
  · simp only [known, if_false] at size ⊢
    omega

theorem counts_foldl_mergeRow (rows : List (Namespace × List Entry))
    (state : Groups × MergeOutcome) :
    (rows.foldl mergeRow state).2.added + (rows.foldl mergeRow state).2.replaced =
        state.2.added + state.2.replaced + rows.length ∧
      (rows.foldl mergeRow state).1.namespaceCount + state.2.added =
        state.1.namespaceCount + (rows.foldl mergeRow state).2.added := by
  induction rows generalizing state with
  | nil => exact ⟨rfl, rfl⟩
  | cons row rows ih =>
    have first := counts_mergeRow state row
    have later := ih (mergeRow state row)
    rw [List.foldl_cons, List.length_cons]
    omega

theorem counts_merge (groups incoming : Groups) :
    (groups.merge incoming).2.added + (groups.merge incoming).2.replaced =
        incoming.namespaceCount ∧
      (groups.merge incoming).1.namespaceCount =
        groups.namespaceCount + (groups.merge incoming).2.added := by
  have counts := counts_foldl_mergeRow incoming.rows (groups, {})
  simp only [Nat.zero_add, Nat.add_zero] at counts
  exact counts

end Groups

namespace Page

def Operation.payload? : Operation → Option Payload
  | accept payload => some payload
  | display _ => none

/-- The operation is not a payload of another trait. -/
def Operation.concerns (key : TraitKey) : Operation → Bool
  | accept payload => payload.traitKey = key
  | display _ => true

def payloadsOf (key : TraitKey) (operations : List Operation) : List Payload :=
  (operations.filterMap Operation.payload?).filter fun payload => payload.traitKey = key

theorem payloadsOf_append (key : TraitKey) (operations more : List Operation) :
    payloadsOf key (operations ++ more) = payloadsOf key operations ++ payloadsOf key more := by
  rw [payloadsOf, List.filterMap_append, List.filter_append]
  rfl

theorem payloadsOf_accepts (key : TraitKey) (payloads : List Payload) :
    payloadsOf key (payloads.map .accept) = payloads.filter fun payload => payload.traitKey = key := by
  have brought : (payloads.map Operation.accept).filterMap Operation.payload? = payloads := by
    rw [List.filterMap_map]
    exact List.filterMap_some
  rw [payloadsOf, brought]

theorem payloadsOf_concat_display (key other : TraitKey) (operations : List Operation) :
    payloadsOf key (operations ++ [.display other]) = payloadsOf key operations := by
  simp [payloadsOf, Operation.payload?]

theorem payloadsOf_concat_accept (key : TraitKey) (operations : List Operation)
    (payload : Payload) :
    payloadsOf key (operations ++ [.accept payload]) =
      if payload.traitKey = key then payloadsOf key operations ++ [payload]
      else payloadsOf key operations := by
  by_cases own : payload.traitKey = key
  · simp [payloadsOf, Operation.payload?, own]
  · simp [payloadsOf, Operation.payload?, own]

theorem payloadsOf_filter (key : TraitKey) (operations : List Operation) :
    payloadsOf key (operations.filter (Operation.concerns key)) = payloadsOf key operations := by
  unfold payloadsOf
  induction operations with
  | nil => rfl
  | cons next operations ih =>
    cases next with
    | display other =>
      simp only [List.filter_cons, List.filterMap_cons, Operation.concerns, Operation.payload?, if_true]
      exact ih
    | accept payload =>
      by_cases own : payload.traitKey = key
      · simpa [Operation.concerns, Operation.payload?, own] using ih
      · simpa [Operation.concerns, Operation.payload?, own] using ih

theorem groups?_perform_accept (page : Page) (payload : Payload) (key : TraitKey) :
    (page.perform (.accept payload)).groups? key =
      if payload.traitKey = key then some (page.mergePayload payload).1 else page.groups? key := by
  rw [← groups?_absorb]
  by_cases shown : page.displayed = some payload.traitKey
  · rw [perform_accept_displayed shown]
    rfl
  · rw [perform_accept_other shown]

/-- A page knows of a trait what its payloads leave when they are merged in order. -/
theorem groups?_after (options : RenderOptions) (operations : List Operation) (key : TraitKey) :
    (after options operations).groups? key =
      if payloadsOf key operations = [] then none
      else some (Groups.mergeAll (payloadsOf key operations)) := by
  induction operations using List.reverseRecOn with
  | nil => rfl
  | append_singleton operations next ih =>
    rw [after_concat]
    cases next with
    | display other =>
      rw [payloadsOf_concat_display]
      exact ih
    | accept payload =>
      rw [groups?_perform_accept, payloadsOf_concat_accept]
      by_cases own : payload.traitKey = key
      · have known : ((after options operations).groups? key).getD .empty =
            Groups.mergeAll (payloadsOf key operations) := by
          rw [ih]
          split
          · rename_i none
            rw [none]
            rfl
          · rfl
        rw [if_pos own, if_pos own, if_neg (by simp), Groups.mergeAll_concat, mergePayload, own, known]
      · rw [if_neg own, if_neg own]
        exact ih

theorem implementors_after (options : RenderOptions) (operations : List Operation)
    (key : TraitKey) :
    (after options operations).implementors key =
      (Groups.mergeAll (payloadsOf key operations)).entries := by
  rw [implementors, groups?_after]
  split
  · rename_i unknown
    split at unknown
    · rename_i none
      rw [none]
      rfl
    · simp at unknown
  · rename_i known
    split at known
    · simp at known
    · rw [← Option.some.inj known]

theorem entries_mergeAll (payloads : List Payload) :
    (Groups.mergeAll payloads).entries = (firstSeen payloads).flatMap (latest payloads) := by
  rw [Groups.entries, Groups.rows_mergeAll, mergedRows, List.flatMap_map]

theorem entryCount_mergeAll_eq_zero_iff (payloads : List Payload) :
    (Groups.mergeAll payloads).entryCount = 0 ↔
      ∀ name ∈ firstSeen payloads, latest payloads name = [] := by
  rw [Groups.entryCount_eq_length, List.length_eq_zero_iff, entries_mergeAll,
    List.flatMap_eq_nil_iff]

/-- The entries that a section shows are the entries of its groups, also when it shows none. -/
theorem entries_ofGroups? (groups : Groups) :
    (Section.ofGroups? (some groups)).entries = groups.entries := by
  simp only [Section.ofGroups?]
  split
  · rename_i none
    rw [Groups.entryCount_eq_length, List.length_eq_zero_iff] at none
    rw [none]
    rfl
  · rfl

theorem entries_sectionOf (page : Page) (key : TraitKey) :
    (page.sectionOf key).entries = page.implementors key := by
  unfold sectionOf implementors
  cases page.groups? key with
  | none => rfl
  | some groups => exact entries_ofGroups? groups

/-- Every answer of a page about a trait is read off the payloads of that trait. The namespaces stand
in order of first occurrence, each with the list of the last payload that has it; the entries are
these lists one after the other; the section is not loaded without a payload, empty when all lists
are, and shows these groups otherwise. Payloads of other traits make no difference. A merge counts
every namespace of its payload once, as added exactly where the number of namespaces grows. -/
theorem merged_eq_reference (options : RenderOptions) (operations : List Operation)
    (key : TraitKey) :
    ((after options operations).groups? key).map Groups.rows =
        (if payloadsOf key operations = [] then none
          else some (mergedRows (payloadsOf key operations))) ∧
      (after options operations).implementors key =
        (firstSeen (payloadsOf key operations)).flatMap (latest (payloadsOf key operations)) ∧
      (after options operations).sectionOf key =
        (if payloadsOf key operations = [] then .notLoaded
          else if ∀ name ∈ firstSeen (payloadsOf key operations),
              latest (payloadsOf key operations) name = [] then .empty
          else .populated (mergedRows (payloadsOf key operations))) ∧
      ((after options operations).sectionOf key).entries =
        (after options operations).implementors key ∧
      (after options operations).groups? key =
        (after options (operations.filter (Operation.concerns key))).groups? key ∧
      ∀ (groups : Groups) (payload : Payload),
        (groups.merge payload.groups).2.added + (groups.merge payload.groups).2.replaced =
            payload.groups.namespaceCount ∧
          (groups.merge payload.groups).1.namespaceCount =
            groups.namespaceCount + (groups.merge payload.groups).2.added := by
  refine ⟨?_, ?_, ?_, ?_, ?_, ?_⟩
  · rw [groups?_after]
    split
    · rfl
    · rw [Option.map_some, Groups.rows_mergeAll]
  · rw [implementors_after, entries_mergeAll]
  · rw [sectionOf, groups?_after]
    split
    · rfl
    · simp only [Section.ofGroups?, entryCount_mergeAll_eq_zero_iff, Groups.rows_mergeAll]
  · exact entries_sectionOf (after options operations) key
  · rw [groups?_after, groups?_after, payloadsOf_filter]
  · intro groups payload
    exact Groups.counts_merge groups payload.groups

end Page

end ImplementorIndex
