import ImplementorIndex.Proofs.Page.Overview
import Mathlib.Data.List.Infix

/-!
# Payloads that come again, and payloads in pieces

What a page holds does not show in how many steps it came there. Payloads that are taken once more at
the end change nothing but the number of renderings, although lists that were replaced long ago come
back in between. And lists that belong to one trait can be cut into payloads anywhere. Both rest on
what a sequence of writes leaves: the keys in order of first arrival, and under each the last value.
-/

namespace ImplementorIndex

namespace Groups

variable {groups incoming : Groups}

theorem insertAll_append (groups : Groups) (rows more : List (Namespace × List Entry)) :
    groups.insertAll (rows ++ more) = (groups.insertAll rows).insertAll more :=
  List.foldl_append

theorem insertAll_eq_ofList (groups : Groups) (rows : List (Namespace × List Entry)) :
    groups.insertAll rows = ofList (groups.rows ++ rows) := by
  rw [ofList, insertAll_append]
  exact congrArg (fun known => insertAll known rows) (ofList_rows groups).symm

theorem insertAll_rows_ofList (groups : Groups) (rows : List (Namespace × List Entry)) :
    groups.insertAll (ofList rows).rows = groups.insertAll rows := by
  rw [insertAll_eq_ofList, insertAll_eq_ofList]
  apply eq_of_rows
  rw [rows_ofList, rows_ofList, rows_ofList, Rows.ofList_append_ofList]

/-- The groups in between differ from those at the end; only the whole repetition leaves them alone. -/
theorem mergeAll_append_of_suffix {payloads again : List Payload} (suffix : again <:+ payloads) :
    mergeAll (payloads ++ again) = mergeAll payloads := by
  rw [mergeAll_eq_ofList, mergeAll_eq_ofList, List.flatMap_append]
  apply eq_of_rows
  rw [rows_ofList, rows_ofList]
  exact Rows.ofList_append_of_suffix (suffix.flatMap _)

theorem mem_names_insertAll (groups : Groups) (rows : List (Namespace × List Entry))
    (name : Namespace) :
    name ∈ (groups.insertAll rows).names ↔ name ∈ groups.names ∨ name ∈ Rows.keys rows := by
  rw [insertAll_eq_ofList, names, rows_ofList, Rows.keys_ofList, List.mem_eraseDups,
    Rows.keys_append, List.mem_append]
  rfl

theorem mem_names_merge {name : Namespace} :
    name ∈ (groups.merge incoming).1.names ↔ name ∈ groups.names ∨ name ∈ incoming.names := by
  rw [fst_merge, mem_names_insertAll]
  rfl

/-- A merge that brings no new namespace counts all of them as replaced. -/
theorem snd_merge_of_subset (known : incoming.names ⊆ groups.names) :
    (groups.merge incoming).2 = { added := 0, replaced := incoming.namespaceCount } := by
  have same : (groups.merge incoming).1.names.Perm groups.names := by
    apply (List.perm_ext_iff_of_nodup (groups.merge incoming).1.distinct groups.distinct).mpr
    intro name
    change name ∈ (groups.merge incoming).1.names ↔ name ∈ groups.names
    rw [mem_names_merge]
    exact ⟨fun member => member.elim id fun new => known new, Or.inl⟩
  have size := same.length_eq
  rw [length_names, length_names] at size
  obtain ⟨all, grown⟩ := counts_merge groups incoming
  cases outcome : (groups.merge incoming).2 with
  | mk added replaced =>
    rw [outcome] at all grown
    simp only [MergeOutcome.mk.injEq] at all grown ⊢
    omega

end Groups

namespace Page

variable {options : RenderOptions} {page other : Page} {payload : Payload} {payloads : List Payload}
  {operations others : List Operation}

def acceptAll (page : Page) (payloads : List Payload) : Logged Page := payloads.foldlM accept page

theorem value_acceptAll (page : Page) (payloads : List Payload) :
    (page.acceptAll payloads).value = (payloads.map Operation.accept).foldl perform page := by
  induction payloads generalizing page with
  | nil => rfl
  | cons payload payloads ih => exact ih (page.accept payload).value

theorem value_acceptAll_after (options : RenderOptions) (operations : List Operation)
    (payloads : List Payload) :
    ((after options operations).acceptAll payloads).value =
      after options (operations ++ payloads.map .accept) := by
  rw [value_acceptAll, after, after, List.foldl_append]

/-- The pages give the same answers and show the same text; how often they have rendered does not
count. -/
structure Alike (page other : Page) : Prop where
  groups : ∀ key, page.groups? key = other.groups? key
  implementors : ∀ key, page.implementors key = other.implementors key
  sections : ∀ key, page.sectionOf key = other.sectionOf key
  summary : page.summary = other.summary
  shownTrait : page.rendered.traitKey = other.rendered.traitKey
  shownText : page.rendered.html = other.rendered.html

/-- What is known of each trait and which trait was displayed last settle all the rest. -/
theorem alike_of_groups (shown : lastDisplayed operations = lastDisplayed others)
    (same : ∀ key, (after options operations).groups? key = (after options others).groups? key) :
    Alike (after options operations) (after options others) := by
  have sections : ∀ key,
      (after options operations).sectionOf key = (after options others).sectionOf key := by
    intro key
    rw [sectionOf, sectionOf, same]
  have rendered := rendered_after options operations
  have rendered' := rendered_after options others
  refine ⟨same, ?_, sections, ?_, ?_, ?_⟩
  · intro key
    simp only [implementors, same]
  · apply summary_eq_of_counts (nodup_traits_after options operations)
      (nodup_traits_after options others)
    intro key
    rw [counts?, counts?, same]
  · rw [rendered.1, rendered'.1, shown]
  · rw [rendered.2, rendered'.2, shown]
    simp only [sections]

/-- The groups of the trait have every namespace of the payload. -/
def Knows (page : Page) (payload : Payload) : Prop :=
  ∃ groups, page.groups? payload.traitKey = some groups ∧ payload.groups.names ⊆ groups.names

theorem knows_accept (page : Page) (payload : Payload) :
    (page.perform (.accept payload)).Knows payload := by
  refine ⟨_, by rw [groups?_perform_accept, if_pos rfl], ?_⟩
  intro name member
  exact Groups.mem_names_merge.mpr (.inr member)

/-- Nothing that is known is forgotten. -/
theorem Knows.accept (h : page.Knows payload) (next : Payload) :
    (page.perform (.accept next)).Knows payload := by
  obtain ⟨groups, known, names⟩ := h
  by_cases own : next.traitKey = payload.traitKey
  · refine ⟨_, by rw [groups?_perform_accept, if_pos own], ?_⟩
    intro name member
    rw [mergePayload, own, known, Option.getD_some]
    exact Groups.mem_names_merge.mpr (.inl (names member))
  · exact ⟨groups, by rw [groups?_perform_accept, if_neg own, known], names⟩

theorem knows_after (options : RenderOptions) (earlier : List Operation) (payloads : List Payload) :
    ∀ payload ∈ payloads, (after options (earlier ++ payloads.map .accept)).Knows payload := by
  induction payloads using List.reverseRecOn with
  | nil => simp
  | append_singleton payloads last ih =>
    intro payload member
    rw [List.map_append, List.map_singleton, ← List.append_assoc, after_concat]
    rcases List.mem_append.mp member with before | here
    · exact (ih payload before).accept last
    · rw [List.mem_singleton.mp here]
      exact knows_accept _ last

theorem outcome_of_knows (h : page.Knows payload) :
    (page.mergePayload payload).2 = { added := 0, replaced := payload.groups.namespaceCount } := by
  obtain ⟨groups, known, names⟩ := h
  rw [mergePayload, known, Option.getD_some]
  exact Groups.snd_merge_of_subset names

def merge? : Event → Option (TraitKey × MergeOutcome)
  | .pageMerged key added replaced _ => some (key, { added := added, replaced := replaced })
  | _ => none

theorem merges_accept (page : Page) (payload : Payload) :
    (page.accept payload).events.filterMap merge? =
      [(payload.traitKey, (page.mergePayload payload).2)] := by
  by_cases shown : page.displayed = some payload.traitKey
  · simp [accept, shown, Logged.note, publish, merge?]
  · simp [accept, shown, Logged.note, merge?]

theorem merges_acceptAll (page : Page) (known : ∀ payload ∈ payloads, page.Knows payload) :
    (page.acceptAll payloads).events.filterMap merge? =
      payloads.map fun payload =>
        (payload.traitKey, { added := 0, replaced := payload.groups.namespaceCount }) := by
  induction payloads generalizing page with
  | nil => rfl
  | cons payload payloads ih =>
    have first := outcome_of_knows (known payload List.mem_cons_self)
    have later := ih (page.accept payload).value fun next member =>
      (known next (List.mem_cons_of_mem _ member)).accept payload
    rw [acceptAll, List.foldlM_cons, Logged.events_bind, List.filterMap_append, merges_accept, first]
    exact congrArg (List.cons _) later

/-- Taking the last payloads once more, in the same order, makes no difference that can be asked for or
seen. A page that has taken payloads, whatever was displayed or taken before, and then takes a suffix
of them again has the same groups of every trait in the same order, the same entries, sections and
overview, and the same trait and text on display. Each merge of the repetition reports that it added
no namespace and replaced all of its payload. -/
theorem replay_idempotent (options : RenderOptions) (earlier : List Operation)
    {payloads again : List Payload} (suffix : again <:+ payloads) :
    Alike ((after options (earlier ++ payloads.map .accept)).acceptAll again).value
        (after options (earlier ++ payloads.map .accept)) ∧
      ((after options (earlier ++ payloads.map .accept)).acceptAll again).events.filterMap merge? =
        again.map fun payload =>
          (payload.traitKey, { added := 0, replaced := payload.groups.namespaceCount }) := by
  constructor
  · rw [value_acceptAll_after]
    apply alike_of_groups
    · rw [lastDisplayed_append_accepts]
    · intro key
      have own : payloadsOf key (again.map .accept) <:+
          payloadsOf key (earlier ++ payloads.map .accept) := by
        rw [payloadsOf_append]
        exact List.suffix_append_of_suffix (((suffix.map _).filterMap _).filter _)
      rw [groups?_after, groups?_after, payloadsOf_append, Groups.mergeAll_append_of_suffix own]
      by_cases none : payloadsOf key (earlier ++ payloads.map .accept) = []
      · rw [none] at own
        rw [none, List.suffix_nil.mp own]
        rfl
      · rw [if_neg none, if_neg (by simp [none])]
  · apply merges_acceptAll
    intro payload member
    exact knows_after options earlier payloads payload (suffix.subset member)

/-- A list that is replaced later, beside another trait. -/
def corrections : List Payload :=
  [.ofGroups ⟨"Clone"⟩ [(⟨"alpha"⟩, [{ markup := "impl A" }]), (⟨"beta"⟩, [])],
   .ofGroups ⟨"Debug"⟩ [(⟨"alpha"⟩, [{ markup := "impl D" }])],
   .ofGroups ⟨"Clone"⟩ [(⟨"gamma"⟩, []), (⟨"alpha"⟩, [{ markup := "impl B" }])]]

def corrected : Page := after {} ([.display ⟨"Clone"⟩] ++ corrections.map .accept)

/-- The first payload alone would bring the replaced list back. -/
theorem replay_idempotent_corrections :
    corrections <:+ corrections ∧
    (corrected.acceptAll (corrections.take 1)).value.implementors ⟨"Clone"⟩ ≠
      corrected.implementors ⟨"Clone"⟩ ∧
    Alike (corrected.acceptAll corrections).value corrected ∧
      (corrected.acceptAll corrections).events.filterMap merge? =
        corrections.map fun payload =>
          (payload.traitKey, { added := 0, replaced := payload.groups.namespaceCount }) :=
  ⟨List.suffix_refl _, by decide, replay_idempotent {} [.display ⟨"Clone"⟩] (List.suffix_refl _)⟩

end Page

def Payload.adding (key : TraitKey) (rows : List (Namespace × List Entry)) : Payload :=
  rows.foldl (fun payload row => payload.withGroup row.1 row.2) ⟨key, .empty⟩

theorem Payload.adding_eq (key : TraitKey) (rows : List (Namespace × List Entry)) :
    adding key rows = ⟨key, .ofList rows⟩ :=
  foldl_withGroup key .empty rows

namespace Groups

/-- A repeated namespace is settled first in its payload and then in the merge, and the two together
write the lists one by one. -/
theorem merge_adding (groups : Groups) (key : TraitKey) (rows : List (Namespace × List Entry)) :
    (groups.merge (Payload.adding key rows).groups).1 = groups.insertAll rows := by
  rw [fst_merge, Payload.adding_eq, insertAll_rows_ofList]

theorem foldl_merge_adding (groups : Groups) (key : TraitKey)
    (pieces : List (List (Namespace × List Entry))) :
    (pieces.map (Payload.adding key)).foldl
        (fun groups payload => (groups.merge payload.groups).1) groups =
      groups.insertAll pieces.flatten := by
  induction pieces generalizing groups with
  | nil => rfl
  | cons piece pieces ih =>
    rw [List.map_cons, List.foldl_cons, ih, merge_adding, List.flatten_cons, insertAll_append]

theorem mergeAll_append (payloads more : List Payload) :
    mergeAll (payloads ++ more) =
      more.foldl (fun groups payload => (groups.merge payload.groups).1) (mergeAll payloads) :=
  List.foldl_append

end Groups

namespace Page

theorem payloadsOf_adding (key asked : TraitKey) (pieces : List (List (Namespace × List Entry))) :
    payloadsOf asked ((pieces.map (Payload.adding key)).map .accept) =
      if key = asked then pieces.map (Payload.adding key) else [] := by
  have keys : ∀ payload ∈ pieces.map (Payload.adding key), payload.traitKey = key := by
    intro payload member
    obtain ⟨rows, _, rfl⟩ := List.mem_map.mp member
    rw [Payload.adding_eq]
  rw [payloadsOf_accepts]
  split
  · rename_i own
    rw [List.filter_eq_self]
    intro payload member
    simp [keys payload member, own]
  · rename_i other
    rw [List.filter_eq_nil_iff]
    intro payload member
    simp [keys payload member, other]

/-- How the lists of a trait are cut into payloads makes no difference. Payloads made of consecutive
pieces of a sequence of lists and merged in order, whatever the groups were before, leave the groups
that one payload made of all the lists leaves, in the same order. So a page gives the same entries for
every trait, whether it takes the pieces or the whole. -/
theorem batching_irrelevant (key : TraitKey) (pieces : List (List (Namespace × List Entry))) :
    (∀ groups : Groups,
      (pieces.map (Payload.adding key)).foldl
          (fun groups payload => (groups.merge payload.groups).1) groups =
        (groups.merge (Payload.adding key pieces.flatten).groups).1) ∧
    ∀ (options : RenderOptions) (earlier : List Operation) (asked : TraitKey),
      (after options (earlier ++ (pieces.map (Payload.adding key)).map .accept)).implementors asked =
        (after options
          (earlier ++ [.accept (Payload.adding key pieces.flatten)])).implementors asked := by
  have merged : ∀ groups : Groups,
      (pieces.map (Payload.adding key)).foldl
          (fun groups payload => (groups.merge payload.groups).1) groups =
        (groups.merge (Payload.adding key pieces.flatten).groups).1 := by
    intro groups
    rw [Groups.foldl_merge_adding, Groups.merge_adding]
  refine ⟨merged, ?_⟩
  intro options earlier asked
  have pieced := payloadsOf_adding key asked pieces
  have whole := payloadsOf_adding key asked [pieces.flatten]
  rw [List.map_singleton, List.map_singleton] at whole
  rw [implementors_after, implementors_after, payloadsOf_append, payloadsOf_append, pieced, whole]
  by_cases own : key = asked
  · rw [if_pos own, if_pos own, Groups.mergeAll_append, Groups.mergeAll_append, merged]
    rfl
  · rw [if_neg own, if_neg own]

end Page

end ImplementorIndex
