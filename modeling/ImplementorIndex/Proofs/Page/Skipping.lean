import ImplementorIndex.Proofs.Page.Merging

/-!
# A namespace that is left out

A page can leave one namespace out of what it shows. It takes the groups of that namespace like any
other and drops them when it renders. The main statement compares it with a page that never hears of
the namespace: group by group the two hold different things, and yet after every operation they
publish the same rendering. What is asked of a page, on the other hand, does not depend on its options
at all.
-/

namespace ImplementorIndex

namespace Rows

universe u v

variable {κ : Type u} {α : Type v} [DecidableEq κ]

def without (key : κ) (rows : List (κ × α)) : List (κ × α) := rows.filter fun row => row.1 ≠ key

theorem without_cons_self (key : κ) (value : α) (rows : List (κ × α)) :
    without key ((key, value) :: rows) = without key rows := by
  simp [without]

theorem without_cons_of_ne {key : κ} {row : κ × α} (ne : row.1 ≠ key) (rows : List (κ × α)) :
    without key (row :: rows) = row :: without key rows := by
  simp [without, ne]

theorem nodup_keys_without {rows : List (κ × α)} (distinct : (keys rows).Nodup) (key : κ) :
    (keys (without key rows)).Nodup :=
  distinct.sublist (List.filter_sublist.map Prod.fst)

/-- A write under the key that is left out leaves no trace. -/
theorem without_put_self (key : κ) (value : α) (rows : List (κ × α)) :
    without key (put key value rows) = without key rows := by
  induction rows with
  | nil => exact without_cons_self key value []
  | cons row rows ih =>
    by_cases here : row.1 = key
    · obtain ⟨first, old⟩ := row
      obtain rfl : first = key := here
      rw [put, if_pos rfl, without_cons_self, without_cons_self]
    · rw [put, if_neg here, without_cons_of_ne here, without_cons_of_ne here, ih]

theorem without_put_of_ne {key other : κ} (ne : other ≠ key) (value : α) (rows : List (κ × α)) :
    without key (put other value rows) = put other value (without key rows) := by
  induction rows with
  | nil => exact without_cons_of_ne ne []
  | cons row rows ih =>
    by_cases here : row.1 = other
    · have kept : row.1 ≠ key := fun same => ne (here.symm.trans same)
      rw [put, if_pos here, without_cons_of_ne ne, without_cons_of_ne kept, put, if_pos here]
    · rw [put, if_neg here]
      by_cases gone : row.1 = key
      · obtain ⟨first, old⟩ := row
        obtain rfl : first = key := gone
        rw [without_cons_self, without_cons_self, ih]
      · rw [without_cons_of_ne gone, without_cons_of_ne gone, put, if_neg here, ih]

end Rows

namespace Groups

def without (groups : Groups) (name : Namespace) : Groups :=
  ⟨Rows.without name groups.rows, Rows.nodup_keys_without groups.distinct name⟩

theorem eq_of_rows {groups other : Groups} (same : groups.rows = other.rows) : groups = other := by
  cases groups
  cases other
  cases same
  rfl

theorem without_insert_self (groups : Groups) (name : Namespace) (entries : List Entry) :
    (groups.insert name entries).without name = groups.without name :=
  eq_of_rows (Rows.without_put_self name entries groups.rows)

theorem without_insert_of_ne {name other : Namespace} (ne : other ≠ name) (groups : Groups)
    (entries : List Entry) :
    (groups.insert other entries).without name = (groups.without name).insert other entries :=
  eq_of_rows (Rows.without_put_of_ne ne entries groups.rows)

theorem without_insertAll (name : Namespace) (rows : List (Namespace × List Entry))
    (groups : Groups) :
    (groups.insertAll rows).without name = (groups.without name).insertAll (Rows.without name rows) := by
  induction rows generalizing groups with
  | nil => rfl
  | cons row rows ih =>
    have later := ih (groups.insert row.1 row.2)
    by_cases gone : row.1 = name
    · obtain ⟨first, entries⟩ := row
      obtain rfl : first = name := gone
      rw [Rows.without_cons_self, ← without_insert_self groups first entries]
      exact later
    · rw [Rows.without_cons_of_ne gone]
      rw [without_insert_of_ne gone] at later
      exact later

/-- It makes no difference whether a namespace is left out before a merge or after it. -/
theorem without_merge (name : Namespace) (groups incoming : Groups) :
    (groups.merge incoming).1.without name =
      ((groups.without name).merge (incoming.without name)).1 := by
  rw [fst_merge, fst_merge, without_insertAll]
  rfl

end Groups

namespace Section

/-- A trait that is known is rendered from what is visible of its groups, also when they are all
empty. -/
theorem render_ofGroups? (groups : Groups) (options : RenderOptions) :
    (ofGroups? (some groups)).render options =
      headingLine options ++ loadedBody (visibleEntries groups.rows options.skip) options := by
  by_cases none : groups.entryCount = 0
  · have nothing : groups.rows.flatMap Prod.snd = [] := by
      rw [Groups.entryCount_eq_length] at none
      exact List.length_eq_zero_iff.mp none
    have invisible : visibleEntries groups.rows options.skip = [] := by
      rw [List.flatMap_eq_nil_iff] at nothing
      rw [visibleEntries, List.flatMap_eq_nil_iff]
      intro row member
      exact nothing row (List.mem_filter.mp member).1
    rw [ofGroups?, if_pos none, invisible]
    rfl
  · rw [ofGroups?, if_neg none]
    rfl

theorem visibleEntries_without (groups : Groups) (name : Namespace) :
    visibleEntries (groups.without name).rows none = visibleEntries groups.rows (some name) := by
  simp [visibleEntries, Groups.without, Rows.without, eq_comm]

theorem render_without (known : Option Groups) (name : Namespace) (options : RenderOptions) :
    (ofGroups? (known.map fun groups => groups.without name)).render { options with skip := none } =
      (ofGroups? known).render { options with skip := some name } := by
  cases known with
  | none => rfl
  | some groups =>
    rw [Option.map_some, render_ofGroups?, render_ofGroups?, visibleEntries_without]
    rfl

end Section

def Payload.without (payload : Payload) (name : Namespace) : Payload :=
  { payload with groups := payload.groups.without name }

namespace Page

variable {options : RenderOptions} {name : Namespace} {page other : Page}

/-- The operation with a namespace taken out of what it brings. A payload that is left without groups
still arrives. -/
def Operation.without (name : Namespace) : Operation → Operation
  | accept payload => accept (payload.without name)
  | display key => display key

/-- The first page leaves a namespace out of what it shows, the second one has never heard of it, and
both show the same. -/
structure Screens (options : RenderOptions) (name : Namespace) (page other : Page) : Prop where
  skips : page.options = { options with skip := some name }
  shows : other.options = { options with skip := none }
  displayed : other.displayed = page.displayed
  rendered : other.rendered = page.rendered
  groups : ∀ key, other.groups? key = (page.groups? key).map fun groups => groups.without name

theorem Screens.publish (h : Screens options name page other) (key : TraitKey) :
    Screens options name (page.publish key).value (other.publish key).value := by
  refine ⟨h.skips, h.shows, h.displayed, ?_, h.groups⟩
  have html : (other.sectionOf key).render other.options =
      (page.sectionOf key).render page.options := by
    rw [sectionOf, sectionOf, h.groups, h.skips, h.shows, Section.render_without]
  simp only [Page.publish, html, h.rendered]

theorem Screens.mergePayload (h : Screens options name page other) (payload : Payload) :
    (other.mergePayload (payload.without name)).1 = (page.mergePayload payload).1.without name := by
  have known : (other.groups? payload.traitKey).getD .empty =
      ((page.groups? payload.traitKey).getD .empty).without name := by
    rw [h.groups]
    cases page.groups? payload.traitKey with
    | none => rfl
    | some groups => rfl
  unfold Page.mergePayload
  rw [Groups.without_merge, ← known]
  rfl

theorem Screens.absorb (h : Screens options name page other) (payload : Payload) :
    Screens options name (page.absorb payload) (other.absorb (payload.without name)) := by
  refine ⟨h.skips, h.shows, h.displayed, h.rendered, ?_⟩
  intro key
  rw [groups?_absorb, groups?_absorb, h.mergePayload, h.groups]
  by_cases own : payload.traitKey = key
  · rw [if_pos own]
    exact if_pos own
  · rw [if_neg own]
    exact if_neg own

theorem Screens.perform (h : Screens options name page other) (next : Operation) :
    Screens options name (page.perform next) (other.perform (next.without name)) := by
  cases next with
  | display key =>
    have shown : Screens options name { page with displayed := some key }
        { other with displayed := some key } :=
      ⟨h.skips, h.shows, rfl, h.rendered, h.groups⟩
    exact shown.publish key
  | accept payload =>
    have merged := h.absorb payload
    by_cases shown : page.displayed = some payload.traitKey
    · have also : other.displayed = some (payload.without name).traitKey := h.displayed.trans shown
      rw [Operation.without, perform_accept_displayed shown, perform_accept_displayed also]
      exact merged.publish payload.traitKey
    · have also : other.displayed ≠ some (payload.without name).traitKey :=
        fun same => shown (h.displayed.symm.trans same)
      rw [Operation.without, perform_accept_other shown, perform_accept_other also]
      exact merged

theorem screens_after (options : RenderOptions) (name : Namespace) (operations : List Operation) :
    Screens options name (after { options with skip := some name } operations)
      (after { options with skip := none } (operations.map (Operation.without name))) := by
  induction operations using List.reverseRecOn with
  | nil => exact ⟨rfl, rfl, rfl, rfl, fun _ => rfl⟩
  | append_singleton operations next ih =>
    rw [after_concat, List.map_append, List.map_singleton, after_concat]
    exact ih.perform next

theorem traits_perform_accept (page : Page) (payload : Payload) :
    (page.perform (.accept payload)).traits = (page.absorb payload).traits := by
  by_cases shown : page.displayed = some payload.traitKey
  · rw [perform_accept_displayed shown]
    rfl
  · rw [perform_accept_other shown]

theorem traits_perform (same : page.traits = other.traits) (next : Operation) :
    (page.perform next).traits = (other.perform next).traits := by
  cases next with
  | display key => exact same
  | accept payload =>
    rw [traits_perform_accept, traits_perform_accept]
    simp only [absorb, Page.mergePayload, groups?, same]

theorem traits_after (options other : RenderOptions) (operations : List Operation) :
    (after options operations).traits = (after other operations).traits := by
  induction operations using List.reverseRecOn with
  | nil => rfl
  | append_singleton operations next ih =>
    rw [after_concat, after_concat]
    exact traits_perform ih next

/-- A namespace that is left out has no influence on what is shown, and leaving it out none on what is
asked. After so many operations as one likes, a page that leaves the namespace out publishes the same
rendering (trait, text and revision) as a page that leaves nothing out and is brought the same
payloads without that namespace. And whatever the options, the operations leave the same entries, the
same section of every trait and the same overview. -/
theorem skipped_namespace_invisible (options : RenderOptions) (name : Namespace)
    (operations : List Operation) :
    (∀ count : Nat,
      (after { options with skip := some name } (operations.take count)).rendered =
        (after { options with skip := none }
          ((operations.take count).map (Operation.without name))).rendered) ∧
    ∀ (other : RenderOptions) (key : TraitKey),
      (after options operations).implementors key = (after other operations).implementors key ∧
      (after options operations).sectionOf key = (after other operations).sectionOf key ∧
      (after options operations).summary = (after other operations).summary := by
  constructor
  · intro count
    exact (screens_after options name (operations.take count)).rendered.symm
  · intro other key
    have same := traits_after options other operations
    refine ⟨?_, ?_, ?_⟩
    · simp only [implementors, groups?, same]
    · simp only [sectionOf, groups?, same]
    · simp only [summary, same]

end Page

end ImplementorIndex
