import ImplementorIndex.Proofs.Order
import ImplementorIndex.Proofs.Page.Skipping

/-!
# The overview of a page

The overview has a line for each trait that is known, sorted by the keys. It is made of what a page
answers for the traits one by one, so pages that count the same for every trait have the same
overview, whatever the order in which they keep their traits.
-/

namespace ImplementorIndex

instance : Std.TransOrd TraitKey := inferInstanceAs (Std.TransCmp (compareOn TraitKey.text))

instance : Std.LawfulEqOrd TraitKey where
  compare_self := Std.ReflCmp.compare_self
  eq_of_compare := by
    rintro ⟨a⟩ ⟨b⟩ same
    have texts : compare a b = .eq := same
    rw [Std.compare_eq_iff_eq.mp texts]

namespace Page

variable {page : Page} {row : TraitSummary}

theorem nodup_traits_after (options : RenderOptions) (operations : List Operation) :
    (Rows.keys (after options operations).traits).Nodup := by
  induction operations using List.reverseRecOn with
  | nil => exact List.nodup_nil
  | append_singleton operations next ih =>
    rw [after_concat]
    cases next with
    | display key => exact ih
    | accept payload =>
      rw [traits_perform_accept]
      exact Rows.nodup_keys_put ih _ _

theorem mem_summary_iff (distinct : (Rows.keys page.traits).Nodup) :
    row ∈ page.summary ↔ ∃ groups, page.groups? row.traitKey = some groups ∧
      row.namespaces = groups.namespaceCount ∧ row.entries = groups.entryCount := by
  rw [summary, List.mem_mergeSort, List.mem_map]
  constructor
  · rintro ⟨⟨key, groups⟩, member, rfl⟩
    exact ⟨groups, (Rows.find?_eq_some_iff distinct).mpr member, rfl, rfl⟩
  · rintro ⟨groups, known, namespaces, entries⟩
    refine ⟨(row.traitKey, groups), (Rows.find?_eq_some_iff distinct).mp known, ?_⟩
    rw [← namespaces, ← entries]

theorem nodup_summaryKeys {traits : List (TraitKey × Groups)} (distinct : (Rows.keys traits).Nodup) :
    ((traits.map fun row => (⟨row.1, row.2.namespaceCount, row.2.entryCount⟩ : TraitSummary)).map
      TraitSummary.traitKey).Nodup := by
  rw [List.map_map]
  exact distinct

theorem ascending_summary (distinct : (Rows.keys page.traits).Nodup) :
    page.summary.Pairwise fun a b => Text.bytes a.traitKey.text < Text.bytes b.traitKey.text := by
  apply (Sorting.pairwise_lt_sort _ (nodup_summaryKeys distinct)).imp
  intro a b less
  exact Text.bytes_lt_bytes_iff.mpr (Text.compare_eq_lt_iff.mp less)

/-- The order in which the traits are kept does not show. -/
theorem summary_eq_of_perm {other : Page} (distinct : (Rows.keys page.traits).Nodup)
    (perm : page.traits.Perm other.traits) : page.summary = other.summary :=
  Sorting.sort_eq_of_perm _ (nodup_summaryKeys distinct) (perm.map _)

theorem nodup_summary (distinct : (Rows.keys page.traits).Nodup) : page.summary.Nodup := by
  apply (ascending_summary distinct).imp
  rintro a b less rfl
  exact List.lt_irrefl _ less

def counts? (page : Page) (key : TraitKey) : Option (Nat × Nat) :=
  (page.groups? key).map fun groups => (groups.namespaceCount, groups.entryCount)

theorem mem_summary_iff_counts (distinct : (Rows.keys page.traits).Nodup) :
    row ∈ page.summary ↔ page.counts? row.traitKey = some (row.namespaces, row.entries) := by
  rw [mem_summary_iff distinct, counts?, Option.map_eq_some_iff]
  simp only [Prod.mk.injEq, eq_comm]

/-- Equal counts for every trait make equal overviews. -/
theorem summary_eq_of_counts {other : Page} (distinct : (Rows.keys page.traits).Nodup)
    (distinct' : (Rows.keys other.traits).Nodup)
    (same : ∀ key, page.counts? key = other.counts? key) : page.summary = other.summary := by
  have members : ∀ row, row ∈ page.summary ↔ row ∈ other.summary := by
    intro row
    rw [mem_summary_iff_counts distinct, mem_summary_iff_counts distinct', same]
  have perm := (List.perm_ext_iff_of_nodup (nodup_summary distinct) (nodup_summary distinct')).mpr members
  refine List.Perm.eq_of_pairwise ?_ (ascending_summary distinct) (ascending_summary distinct') perm
  intro a b _ _ before behind
  exact absurd behind (List.lt_asymm before)

end Page

end ImplementorIndex
