import ImplementorIndex.Proofs.Command.Replay
import ImplementorIndex.Proofs.Fragment.Loading
import ImplementorIndex.Proofs.Page.Overview

/-!
# The commands agree

The three commands load the same tree and look at it in different ways: one replays the fragments and
asks the page for an overview, one replays them and takes what the page has published, one does not
replay at all. What they print is consistent: a trait has a line in the overview exactly when its
section is loaded, and the counts of the line tell what the section shows.
-/

namespace ImplementorIndex

namespace Section

variable (options : RenderOptions)

def headingText : String :=
  "<h2 id=\"implementors\" class=\"small-section-header\">" ++ options.heading ++ "</h2>\n"

/-- The text for a trait of which nothing has arrived. -/
def notLoadedText : String :=
  headingText options ++
    ("<p class=\"implementors-not-loaded\">" ++ options.notLoadedText ++ "</p>")

def emptyText : String :=
  headingText options ++ ("<p class=\"implementors-empty\">" ++ options.emptyText ++ "</p>")

/-- The text with a list of entries, one item for each, the label of an entry behind its markup. -/
def listText (entries : List Entry) : String :=
  headingText options ++ ("<ul class=\"item-list\" id=\"implementors-list\">\n" ++
    String.join (entries.map fun entry =>
      "<li><code>" ++ entry.markup ++ "</code>" ++
        entry.label.elim "" (fun label => "<span class=\"out-of-band\">" ++ label ++ "</span>") ++
        "</li>\n") ++ "</ul>")

variable {options}

theorem item_eq : item = fun entry => "<li><code>" ++ entry.markup ++ "</code>" ++
    entry.label.elim "" (fun label => "<span class=\"out-of-band\">" ++ label ++ "</span>") ++
    "</li>\n" := by
  funext entry
  unfold item
  cases entry.label with
  | none => rfl
  | some label => rfl

theorem render_notLoaded : notLoaded.render options = notLoadedText options := rfl

theorem render_groups (everything : options.skip = none) (groups : Groups) :
    (ofGroups? (some groups)).render options =
      if groups.entries = [] then emptyText options else listText options groups.entries := by
  have visible : visibleEntries groups.rows options.skip = groups.entries := by
    rw [visibleEntries, everything, Groups.entries]
    simp
  have heading : headingLine options = headingText options := rfl
  rw [render_ofGroups?, visible, loadedBody, heading]
  by_cases none : groups.entries = []
  · simp [none, emptyText]
  · simp [none, listText, item_eq]

/-- Texts that part within their known beginnings differ, whatever follows. -/
theorem append_ne_of_take {a b : String} {count : Nat} (left : count ≤ a.toList.length)
    (right : count ≤ b.toList.length) (ne : a.toList.take count ≠ b.toList.take count)
    (front x y : String) : front ++ (a ++ x) ≠ front ++ (b ++ y) := by
  intro same
  have lists := congrArg String.toList same
  simp only [String.toList_append] at lists
  have rest := congrArg (List.take count) (List.append_cancel_left lists)
  rw [List.take_append_of_le_length left, List.take_append_of_le_length right] at rest
  exact ne rest

theorem notLoadedText_ne_emptyText : notLoadedText options ≠ emptyText options := by
  rw [notLoadedText, emptyText, String.append_assoc, String.append_assoc]
  -- Both classes start with `implementors-`; the letter behind it tells the paragraphs apart.
  exact @append_ne_of_take _ _ 24 (by decide) (by decide) (by decide) _ _ _

theorem notLoadedText_ne_listText (entries : List Entry) :
    notLoadedText options ≠ listText options entries := by
  rw [notLoadedText, listText, String.append_assoc, String.append_assoc]
  exact @append_ne_of_take _ _ 2 (by decide) (by decide) (by decide) _ _ _

theorem emptyText_ne_listText (entries : List Entry) :
    emptyText options ≠ listText options entries := by
  rw [emptyText, listText, String.append_assoc, String.append_assoc]
  exact @append_ne_of_take _ _ 2 (by decide) (by decide) (by decide) _ _ _

end Section

namespace Command

open Files (Node)
open Fragment (FragmentFile LoadReport Tree payload? failure?)

variable {top : Node} {root : Path} {tree : Tree} {payloads : List Payload}
  {rows : List TraitSummary} {key : TraitKey} {options : RenderOptions}

/-- The entries that stand once payloads have come: namespace after namespace in order of first
occurrence, each with the list that came last. -/
def standing (payloads : List Payload) : List Entry :=
  (firstSeen payloads).flatMap (latest payloads)

/-- A line of a trait to which some payload belongs, with the counts of what these payloads leave and
merge to. -/
structure Tallies (payloads : List Payload) (row : TraitSummary) : Prop where
  brought : ∃ payload ∈ payloads, payload.traitKey = row.traitKey
  namespaces : row.namespaces = (firstSeen (ownPayloads row.traitKey payloads)).length
  entries : row.entries = (standing (ownPayloads row.traitKey payloads)).length
  merged : row.namespaces = (Groups.mergeAll (ownPayloads row.traitKey payloads)).namespaceCount ∧
    row.entries = (Groups.mergeAll (ownPayloads row.traitKey payloads)).entryCount

/-- The text for a trait with these entries shows what its line counts. -/
structure Reflects (rows : List TraitSummary) (key : TraitKey) (entries : List Entry)
    (options : RenderOptions) (text : String) : Prop where
  notLoaded : text = Section.notLoadedText options ↔ ∀ row ∈ rows, row.traitKey ≠ key
  empty : text = Section.emptyText options ↔ ∃ row ∈ rows, row.traitKey = key ∧ row.entries = 0
  populated : ∀ row ∈ rows, row.traitKey = key → row.entries ≠ 0 →
    entries.length = row.entries ∧ text = Section.listText options entries

theorem ownPayloads_eq_nil_iff :
    ownPayloads key payloads = [] ↔ ¬ ∃ payload ∈ payloads, payload.traitKey = key := by
  simp [ownPayloads, List.filter_eq_nil_iff]

theorem takeAll_eq_after (payloads : List Payload) :
    takeAll {} payloads = Page.after {} (payloads.map .accept) := by
  rw [Page.after, List.foldl_map]
  rfl

theorem nodup_traits_takeAll (payloads : List Payload) :
    (Rows.keys (takeAll {} payloads).traits).Nodup := by
  rw [takeAll_eq_after]
  exact Page.nodup_traits_after {} _

theorem namespaceCount_mergeAll (payloads : List Payload) :
    (Groups.mergeAll payloads).namespaceCount = (firstSeen payloads).length := by
  rw [← Groups.length_names, Groups.names_mergeAll]

theorem entryCount_mergeAll (payloads : List Payload) :
    (Groups.mergeAll payloads).entryCount = (standing payloads).length := by
  rw [Groups.entryCount_eq_length, Page.entries_mergeAll, standing]

theorem tallies_iff (row : TraitSummary) :
    Tallies payloads row ↔ ownPayloads row.traitKey payloads ≠ [] ∧
      row.namespaces = (Groups.mergeAll (ownPayloads row.traitKey payloads)).namespaceCount ∧
      row.entries = (Groups.mergeAll (ownPayloads row.traitKey payloads)).entryCount := by
  rw [Ne, ownPayloads_eq_nil_iff, not_not]
  constructor
  · intro tallies
    exact ⟨tallies.brought, tallies.merged⟩
  · rintro ⟨brought, merged⟩
    refine ⟨brought, ?_, ?_, merged⟩
    · rw [merged.1, namespaceCount_mergeAll]
    · rw [merged.2, entryCount_mergeAll]

theorem mem_overview_iff (row : TraitSummary) :
    row ∈ (takeAll {} payloads).summary ↔ Tallies payloads row := by
  have own : Page.payloadsOf row.traitKey (payloads.map .accept) =
      ownPayloads row.traitKey payloads := Page.payloadsOf_accepts row.traitKey payloads
  rw [Page.mem_summary_iff (nodup_traits_takeAll payloads), takeAll_eq_after, Page.groups?_after, own,
    tallies_iff]
  constructor
  · rintro ⟨groups, known, counts⟩
    split at known
    · cases known
    · rename_i some
      cases known
      exact ⟨some, counts⟩
  · rintro ⟨some, counts⟩
    exact ⟨_, if_neg some, counts⟩

theorem reflects_notLoaded (absent : ∀ row ∈ rows, row.traitKey ≠ key) (entries : List Entry) :
    Reflects rows key entries options (Section.notLoadedText options) := by
  refine ⟨iff_of_true rfl absent, iff_of_false Section.notLoadedText_ne_emptyText ?_, ?_⟩
  · rintro ⟨row, member, own, -⟩
    exact absent row member own
  · intro row member own
    exact absurd own (absent row member)

theorem reflects_entries {entries : List Entry} (line : ∃ row ∈ rows, row.traitKey = key)
    (counted : ∀ row ∈ rows, row.traitKey = key → row.entries = entries.length) :
    Reflects rows key entries options
      (if entries = [] then Section.emptyText options else Section.listText options entries) := by
  obtain ⟨row, member, own⟩ := line
  have loaded : ¬ ∀ row ∈ rows, row.traitKey ≠ key := fun absent => absent row member own
  by_cases none : entries = []
  · subst none
    rw [if_pos rfl]
    refine ⟨iff_of_false Section.notLoadedText_ne_emptyText.symm loaded,
      iff_of_true rfl ⟨row, member, own, counted row member own⟩, ?_⟩
    intro row member own some
    exact absurd (counted row member own) some
  · rw [if_neg none]
    refine ⟨iff_of_false (Section.notLoadedText_ne_listText entries).symm loaded,
      iff_of_false (Section.emptyText_ne_listText entries).symm ?_, ?_⟩
    · rintro ⟨row, member, own, zero⟩
      rw [counted row member own] at zero
      exact none (List.length_eq_zero_iff.mp zero)
    · intro row member own _
      exact ⟨(counted row member own).symm, rfl⟩

/-- The section of a trait that payloads make shows what the line that they make counts. -/
theorem reflects_section (tallies : ∀ row, row ∈ rows ↔ Tallies payloads row)
    (everything : options.skip = none) (key : TraitKey) :
    Reflects rows key (standing (ownPayloads key payloads)) options
      ((sectionFrom key payloads).render options) := by
  by_cases none : ownPayloads key payloads = []
  · have nothing : sectionFrom key payloads = .notLoaded := if_pos none
    rw [nothing, Section.render_notLoaded]
    apply reflects_notLoaded
    rintro row member rfl
    exact ownPayloads_eq_nil_iff.mp none ((tallies row).mp member).brought
  · have merged : sectionFrom key payloads =
        Section.ofGroups? (some (Groups.mergeAll (ownPayloads key payloads))) := if_neg none
    rw [merged, Section.render_groups everything, Page.entries_mergeAll]
    apply reflects_entries
    · refine ⟨⟨key, (Groups.mergeAll (ownPayloads key payloads)).namespaceCount,
        (Groups.mergeAll (ownPayloads key payloads)).entryCount⟩, ?_, rfl⟩
      exact (tallies _).mpr ((tallies_iff _).mpr ⟨none, rfl, rfl⟩)
    · rintro row member rfl
      exact ((tallies row).mp member).entries

theorem value_withTree (scanned : (Fragment.scan top root).value = .ok tree)
    (next : LoadReport → Logged (Except Failure Report)) :
    (withTree top root next).value = (next (tree.load top).value).value := by
  have loaded : (loadTree top root).value = .ok (tree.load top).value := by
    simp only [loadTree, Logged.value_bind, scanned]
    split
    · rfl
    · rfl
  rw [withTree, Logged.value_bind, loaded]

def loadedPayloads (top : Node) (tree : Tree) : List Payload := tree.files.filterMap (payload? top)

theorem payloads_load (top : Node) (tree : Tree) :
    (tree.load top).value.payloads = loadedPayloads top tree := by
  rw [Tree.load, Fragment.value_loadFiles, loadedPayloads]

theorem isClean_load (top : Node) (tree : Tree) :
    (tree.load top).value.isClean ↔ ∀ file ∈ tree.files, (payload? top file).isSome := by
  rw [Tree.load, Fragment.value_loadFiles, LoadReport.isClean, List.isEmpty_iff,
    List.filterMap_eq_nil_iff]
  apply forall₂_congr
  intro file member
  rw [Option.isSome_iff_ne_none, Ne, ← Fragment.isSome_failure?_iff]
  simp

theorem value_traitLines (report : LoadReport) :
    (traitLines report).value =
      .ok ⟨String.join ((takeAll {} report.payloads).summary.map traitLine), report.isClean⟩ := by
  obtain ⟨done, replayed, world⟩ := replay_ok (pure {}) report.payloads (some 0)
  rw [Logged.value_pure] at world
  simp only [traitLines, replayed, world]

theorem value_listTraits (scanned : (Fragment.scan top root).value = .ok tree) :
    (listTraits top root).value =
      .ok ⟨String.join ((takeAll {} (loadedPayloads top tree)).summary.map fun row =>
          row.traitKey.text ++ "\t" ++ toString row.namespaces ++ "\t" ++ toString row.entries ++ "\n"),
        (tree.load top).value.isClean⟩ := by
  rw [listTraits, value_withTree scanned, value_traitLines, payloads_load]
  rfl

theorem value_showTrait_of_scan (scanned : (Fragment.scan top root).value = .ok tree)
    (key : TraitKey) (attachAfter : Option Nat) (options : RenderOptions) :
    (showTrait top root key attachAfter options).value =
      .ok ⟨(sectionFrom key (loadedPayloads top tree)).render options ++ "\n",
        (tree.load top).value.isClean⟩ := by
  rw [showTrait, value_withTree scanned, value_renderSection, payloads_load]

def rejectedLines (top : Node) (tree : Tree) : String :=
  String.join ((tree.files.filterMap (failure? top)).map fun failure =>
    failure.1.text ++ ": " ++ failure.2.message ++ "\n")

theorem value_checkAll (scanned : (Fragment.scan top root).value = .ok tree) :
    (checkAll top root).value =
      .ok ⟨rejectedLines top tree ++
        (toString (tree.files.countP fun file => (payload? top file).isSome) ++
          " fragment(s) ok, " ++
          toString (tree.files.countP fun file => (payload? top file).isNone) ++ " rejected\n"),
        (tree.load top).value.isClean⟩ := by
  have rejected : ∀ file, (failure? top file).isSome = (payload? top file).isNone := by
    intro file
    rw [Bool.eq_iff_iff, Fragment.isSome_failure?_iff, Option.isNone_iff_eq_none]
  rw [checkAll, value_withTree scanned, Logged.value_pure, checkLines, Tree.load,
    Fragment.value_loadFiles]
  simp only [List.length_filterMap_eq_countP, rejected, rejectedLines]

theorem countP_loaded_add_rejected (top : Node) (tree : Tree) :
    tree.files.countP (fun file => (payload? top file).isSome) +
      tree.files.countP (fun file => (payload? top file).isNone) = tree.files.length := by
  rw [List.length_eq_countP_add_countP fun file => (payload? top file).isSome]
  congr 2
  funext file
  cases payload? top file <;> simp

/-- What the commands print of a tree, with the lines of the overview and whether the tree is found in
order. -/
structure Agree (top : Node) (root : Path) (tree : Tree) (rows : List TraitSummary) (clean : Bool) :
    Prop where
  listed : (listTraits top root).value = .ok ⟨String.join (rows.map fun row =>
    row.traitKey.text ++ "\t" ++ toString row.namespaces ++ "\t" ++ toString row.entries ++ "\n"),
    clean⟩
  ascending : rows.Pairwise fun a b => Text.bytes a.traitKey.text < Text.bytes b.traitKey.text
  counted : ∀ row, row ∈ rows ↔ Tallies (loadedPayloads top tree) row
  /-- whatever the order in which the page keeps its traits -/
  orderless : ∀ traits : List (TraitKey × Groups),
    (replay (pure {}) (loadedPayloads top tree) (some 0)).1.world.traits.Perm traits →
      Page.summary { traits := traits } = rows
  /-- whatever the number of payloads after which the page is attached -/
  shown : ∀ (key : TraitKey) (attachAfter : Option Nat) (options : RenderOptions),
    options.skip = none → ∃ text,
      (showTrait top root key attachAfter options).value = .ok ⟨text ++ "\n", clean⟩ ∧
      Reflects rows key (standing (ownPayloads key (loadedPayloads top tree))) options text
  checked : ∃ loaded rejected : Nat,
    (checkAll top root).value = .ok ⟨rejectedLines top tree ++ (toString loaded ++
      " fragment(s) ok, " ++ toString rejected ++ " rejected\n"), clean⟩ ∧
    loaded = tree.files.countP (fun file => (payload? top file).isSome) ∧
    rejected = tree.files.countP (fun file => (payload? top file).isNone) ∧
    loaded + rejected = tree.files.length
  inOrder : clean ↔ ∀ file ∈ tree.files, (payload? top file).isSome

/-- The commands agree on every tree that can be scanned. The overview has a line for each trait of
which a payload was loaded, with the counts of what its payloads merge to, in strictly ascending order
of the bytes of the keys. The text for a trait says that it is not loaded exactly when it has no line,
that it is empty exactly when the line counts no entry, and lists the entries that stand otherwise, as
many items as the line counts. All three find the tree in order exactly when every file can be loaded, and the files are
counted without loss. -/
theorem commands_agree (scanned : (Fragment.scan top root).value = .ok tree) :
    ∃ (rows : List TraitSummary) (clean : Bool), Agree top root tree rows clean := by
  have distinct := nodup_traits_takeAll (loadedPayloads top tree)
  refine ⟨_, _, value_listTraits scanned, Page.ascending_summary distinct, mem_overview_iff, ?_, ?_,
    ⟨_, _, value_checkAll scanned, rfl, rfl, countP_loaded_add_rejected top tree⟩,
    isClean_load top tree⟩
  · intro traits perm
    obtain ⟨done, replayed, world⟩ := replay_ok (pure {}) (loadedPayloads top tree) (some 0)
    rw [replayed, world] at perm
    exact (Page.summary_eq_of_perm distinct perm).symm
  · intro key attachAfter options everything
    exact ⟨_, value_showTrait_of_scan scanned key attachAfter options,
      reflects_section mem_overview_iff everything key⟩

theorem commands_agree_neighbours :
    (Fragment.scan Fragment.neighboursTop ⟨"doc"⟩).value =
      .ok ⟨⟨"doc"⟩, Fragment.neighboursFiles⟩ ∧
    ∃ (rows : List TraitSummary) (clean : Bool),
      Agree Fragment.neighboursTop ⟨"doc"⟩ ⟨⟨"doc"⟩, Fragment.neighboursFiles⟩ rows clean :=
  ⟨Fragment.scan_neighbours, commands_agree Fragment.scan_neighbours⟩

end Command

end ImplementorIndex
