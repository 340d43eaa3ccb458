import ImplementorIndex.Fragment.Tree
import ImplementorIndex.Proofs.Files.Walk

/-!
# Loading a tree of fragments

A scan lists the fragments that its walk has met in the order of their paths. The paths of what a walk
meets differ in their components, so the list is strictly ascending and every walk of the directory
leads to the same one. Loading goes through the list and splits it: each file adds a payload, or else a
failure.
-/

namespace ImplementorIndex.Fragment

open Files (Node Found Yields Walks)

variable {top : Node} {root : Path} {entries : List (String × Node)} {found other : List Found}
  {file : FragmentFile}

/-- What a scan lists of what its walk has met: the files whose path relative to the root has a trait
key, in strictly ascending order of their paths. -/
structure Lists (root : Path) (found : List Found) (files : List FragmentFile) : Prop where
  mem_iff : ∀ file : FragmentFile, file ∈ files ↔ ∃ (names : List String) (relative : Path),
    Found.file file.path names ∈ found ∧ relative = (⟨""⟩ : Path).below names ∧
      file.path.components = root.components ++ relative.components ∧
      TraitKey.ofPath? relative = some file.traitKey
  once : files.Nodup
  ascending : files.Pairwise fun a b =>
    List.Lex Component.Before a.path.components b.path.components

theorem sortFragments_eq (found : List Found) :
    sortFragments found = (found.filterMap fragmentOf?).mergeSort fun a b =>
      (compare a.path.components b.path.components).isLE := by
  simp only [sortFragments, Path.compare_eq]

theorem mem_sortFragments : file ∈ sortFragments found ↔
    ∃ names, Found.file file.path names ∈ found ∧
      TraitKey.ofNames? names = some file.traitKey := by
  rw [sortFragments, List.mem_mergeSort, List.mem_filterMap]
  constructor
  · rintro ⟨item, member, given⟩
    cases item with
    | unlistable path => cases given
    | file path names =>
      obtain ⟨key, named, rfl⟩ := Option.map_eq_some_iff.mp given
      exact ⟨names, member, named⟩
  · rintro ⟨names, member, named⟩
    refine ⟨_, member, ?_⟩
    rw [fragmentOf?, named, Option.map_some]

theorem nodup_components (proper : (Node.directory entries).Proper)
    (walks : Walks root (.directory entries) found) :
    ((found.filterMap fragmentOf?).map fun file => file.path.components).Nodup := by
  rw [List.Nodup, List.pairwise_map, List.pairwise_filterMap]
  refine List.Pairwise.imp_of_mem ?_ walks.once
  intro a b first second ne x given y given' same
  cases a with
  | unlistable path => cases given
  | file path names =>
    cases b with
    | unlistable path => cases given'
    | file path' names' =>
      obtain ⟨key, -, rfl⟩ := Option.map_eq_some_iff.mp given
      obtain ⟨key', -, rfl⟩ := Option.map_eq_some_iff.mp given'
      obtain ⟨rfl, named⟩ := Files.below_of_yields proper ((walks.all _).mp first)
      obtain ⟨rfl, named'⟩ := Files.below_of_yields proper ((walks.all _).mp second)
      rw [Path.components_below named, Path.components_below named'] at same
      have names : names = names' := by
        apply List.map_injective_iff.mpr _ (List.append_cancel_left same)
        intro name name' equal
        exact Component.name.inj equal
      exact ne (by rw [names])

theorem lists_sortFragments (proper : (Node.directory entries).Proper)
    (walks : Walks root (.directory entries) found) : Lists root found (sortFragments found) := by
  have apart := nodup_components proper walks
  refine ⟨?_, ?_, ?_⟩
  · intro file
    rw [mem_sortFragments]
    constructor
    · rintro ⟨names, member, key⟩
      obtain ⟨path, named⟩ := Files.below_of_yields proper ((walks.all _).mp member)
      refine ⟨names, _, member, rfl, ?_, ?_⟩
      · rw [path, Path.components_below named, Path.components_below named]
        rfl
      · rw [Path.ofPath?_below named, key]
    · rintro ⟨names, relative, member, rfl, -, key⟩
      obtain ⟨-, named⟩ := Files.below_of_yields proper ((walks.all _).mp member)
      rw [Path.ofPath?_below named] at key
      exact ⟨names, member, key⟩
  · rw [sortFragments, (List.mergeSort_perm _ _).nodup_iff]
    exact apart.of_map
  · rw [sortFragments_eq]
    apply (Sorting.pairwise_lt_sort _ apart).imp
    intro a b less
    exact Path.compare_components_eq_lt_iff.mp less

theorem sortFragments_eq_of_walks (proper : (Node.directory entries).Proper)
    (walks : Walks root (.directory entries) found)
    (walks' : Walks root (.directory entries) other) :
    sortFragments found = sortFragments other := by
  rw [sortFragments_eq, sortFragments_eq]
  exact Sorting.sort_eq_of_perm _ (nodup_components proper walks)
    ((walks.perm walks').filterMap fragmentOf?)

theorem value_scan (resolved : Files.resolve top root = .ok (.directory entries)) :
    (scan top root).value = .ok ⟨root, sortFragments (Files.walkEntries root [] entries)⟩ := by
  rw [scan, Files.walk, resolved]

def payload? (top : Node) (file : FragmentFile) : Option Payload :=
  (Files.readText top file.path).toOption.bind fun text => (decode file.traitKey text).toOption

def failure? (top : Node) (file : FragmentFile) : Option (Path × Problem) :=
  match Files.readText top file.path with
  | .error cause => some (file.path, .unreadable file.path cause)
  | .ok text =>
    match decode file.traitKey text with
    | .error cause => some (file.path, .malformed cause)
    | .ok _ => none

/-- A report that splits the files without loss. -/
structure Splits (top : Node) (files : List FragmentFile) (report : LoadReport) : Prop where
  payloads : report.payloads = files.filterMap (payload? top)
  keys : report.payloads.map Payload.traitKey =
    (files.filter fun file => (payload? top file).isSome).map FragmentFile.traitKey
  failures : report.failures = files.filterMap (failure? top)
  others : ∀ file, (failure? top file).isSome ↔ payload? top file = none
  total : report.payloads.length + report.failures.length = files.length

theorem traitKey_of_decode {key : TraitKey} {text : String} {payload : Payload}
    (decoded : decode key text = .ok payload) : payload.traitKey = key := by
  unfold decode at decoded
  cases lists : readLists text.toList with
  | error cause =>
    rw [lists] at decoded
    cases decoded
  | ok rows =>
    rw [lists] at decoded
    cases decoded
    rfl

/-- A file gives a payload under its own key, or else a failure under its own path. -/
theorem readFragment_cases (top : Node) (file : FragmentFile) :
    (∃ payload, readFragment top file = .ok payload ∧ payload? top file = some payload ∧
      failure? top file = none ∧ payload.traitKey = file.traitKey) ∨
    (∃ problem, readFragment top file = .error problem ∧ payload? top file = none ∧
      failure? top file = some (file.path, problem)) := by
  unfold readFragment payload? failure?
  cases Files.readText top file.path with
  | error cause => exact .inr ⟨_, rfl, rfl, rfl⟩
  | ok text =>
    simp only [Except.toOption, Option.bind_some]
    cases decoded : decode file.traitKey text with
    | error cause => exact .inr ⟨_, rfl, rfl, rfl⟩
    | ok payload => exact .inl ⟨payload, rfl, rfl, rfl, traitKey_of_decode decoded⟩

theorem value_loadFiles (top : Node) (files : List FragmentFile) :
    (loadFiles top files).value =
      ⟨files.filterMap (payload? top), files.filterMap (failure? top)⟩ := by
  induction files with
  | nil => rfl
  | cons file files ih =>
    rw [loadFiles]
    rcases readFragment_cases top file with ⟨_, read, here, none, _⟩ | ⟨_, read, none, here⟩
    · simp only [read, Logged.value_bind, Logged.value_pure, ih, List.filterMap_cons, here, none]
    · simp only [read, Logged.value_bind, Logged.value_pure, ih, List.filterMap_cons, here, none]

theorem map_traitKey_payloads (top : Node) (files : List FragmentFile) :
    (files.filterMap (payload? top)).map Payload.traitKey =
      (files.filter fun file => (payload? top file).isSome).map FragmentFile.traitKey := by
  induction files with
  | nil => rfl
  | cons file files ih =>
    rcases readFragment_cases top file with ⟨_, _, here, _, key⟩ | ⟨_, _, none, _⟩
    · simp [here, key, ih]
    · simp [none, ih]

theorem length_payloads_add_failures (top : Node) (files : List FragmentFile) :
    (files.filterMap (payload? top)).length + (files.filterMap (failure? top)).length =
      files.length := by
  induction files with
  | nil => rfl
  | cons file files ih =>
    rcases readFragment_cases top file with ⟨_, _, here, none, _⟩ | ⟨_, _, none, here⟩
    · simp only [List.filterMap_cons, here, none, List.length_cons]
      omega
    · simp only [List.filterMap_cons, here, none, List.length_cons]
      omega

theorem isSome_failure?_iff (top : Node) (file : FragmentFile) :
    (failure? top file).isSome ↔ payload? top file = none := by
  rcases readFragment_cases top file with ⟨_, _, here, none, _⟩ | ⟨_, _, none, here⟩
  · simp [here, none]
  · simp [here, none]

theorem splits_loadFiles (top : Node) (files : List FragmentFile) :
    Splits top files (loadFiles top files).value := by
  rw [value_loadFiles]
  exact ⟨rfl, map_traitKey_payloads top files, rfl, isSome_failure?_iff top,
    length_payloads_add_failures top files⟩

/-- Whatever the order in which a walk meets what there is, a scan lists the same files: those whose
relative path has a trait key, each once and in strictly ascending order of their paths. Loading
splits this list into payloads and failures and loses nothing. -/
theorem loading_orderless (resolved : Files.resolve top root = .ok (.directory entries))
    (proper : (Node.directory entries).Proper) (walks : Walks root (.directory entries) found)
    (walks' : Walks root (.directory entries) other) :
    ∃ tree : Tree, (scan top root).value = .ok tree ∧ tree.root = root ∧
      sortFragments found = tree.files ∧ sortFragments other = tree.files ∧
      Lists root found tree.files ∧ Splits top tree.files (tree.load top).value := by
  have listed := Files.walks_walkEntries proper (Files.byteSize_of_resolve resolved)
  have same := sortFragments_eq_of_walks proper walks listed
  refine ⟨_, value_scan resolved, rfl, same, sortFragments_eq_of_walks proper walks' listed, ?_, ?_⟩
  · rw [← same]
    exact lists_sortFragments proper walks
  · exact splits_loadFiles top _

/-- Two directories of which one continues the name of the other, a name with an umlaut, one key at two
places, a file that is malformed, one without a directory above and a link. -/
def neighbours : List (String × Node) :=
  [("core-x", .directory [("trait.A.js", .file "\x7b\x7d".toUTF8)]),
   ("core", .directory
    [("trait.Größe.js", .file "\x7b\"alpha\": [\"impl A\"]\x7d".toUTF8),
     ("trait.B.js", .file "[".toUTF8),
     ("fmt", .directory [("trait.Debug.js", .file "\x7b\"alpha\": []\x7d".toUTF8)])]),
   ("core::fmt", .directory [("trait.Debug.js", .file "\x7b\"beta\": [\"impl B\"]\x7d".toUTF8)]),
   ("trait.C.js", .file "\x7b\x7d".toUTF8), ("here", .link ⟨"."⟩)]

def neighboursTop : Node := .directory [("doc", .directory neighbours)]

theorem resolve_neighbours :
    Files.resolve neighboursTop ⟨"doc"⟩ = .ok (.directory neighbours) := by
  have parts : Files.partsOf ⟨"doc"⟩ = ["doc"] := by decide
  have checked : Files.checkPath ⟨"doc"⟩ = .ok () := by decide
  have short : ¬ Files.nameLimit < "doc".utf8ByteSize := by decide
  rw [Files.resolve, checked, parts]
  show Files.follow neighboursTop _ (.inside []) ["doc"] = _
  unfold Files.follow
  simp only [Files.Place.node?, Files.nodeAt?, neighboursTop, List.reverse_nil]
  unfold Files.follow
  simp [Files.Place.node?, Files.nodeAt?, Files.Place.entry, Rows.find?, short]

theorem proper_neighbours : (Node.directory neighbours).Proper := by decide

def neighboursFound : List Found :=
  [.file ⟨"doc/core-x/trait.A.js"⟩ ["core-x", "trait.A.js"],
   .file ⟨"doc/core/trait.Größe.js"⟩ ["core", "trait.Größe.js"],
   .file ⟨"doc/core/trait.B.js"⟩ ["core", "trait.B.js"],
   .file ⟨"doc/core/fmt/trait.Debug.js"⟩ ["core", "fmt", "trait.Debug.js"],
   .file ⟨"doc/core::fmt/trait.Debug.js"⟩ ["core::fmt", "trait.Debug.js"],
   .file ⟨"doc/trait.C.js"⟩ ["trait.C.js"]]

theorem walkEntries_neighbours : Files.walkEntries ⟨"doc"⟩ [] neighbours = neighboursFound := by
  decide

theorem walks_neighbours : Walks ⟨"doc"⟩ (.directory neighbours) neighboursFound := by
  rw [← walkEntries_neighbours]
  exact Files.walks_walkEntries proper_neighbours (Files.byteSize_of_resolve resolve_neighbours)

def neighboursFiles : List FragmentFile :=
  [⟨⟨"doc/core/fmt/trait.Debug.js"⟩, ⟨"core::fmt::Debug"⟩⟩,
   ⟨⟨"doc/core/trait.B.js"⟩, ⟨"core::B"⟩⟩,
   ⟨⟨"doc/core/trait.Größe.js"⟩, ⟨"core::Größe"⟩⟩,
   ⟨⟨"doc/core-x/trait.A.js"⟩, ⟨"core-x::A"⟩⟩,
   ⟨⟨"doc/core::fmt/trait.Debug.js"⟩, ⟨"core::fmt::Debug"⟩⟩]

theorem sortFragments_neighbours : sortFragments neighboursFound = neighboursFiles := by
  have perm : (neighboursFound.filterMap fragmentOf?).Perm neighboursFiles := by decide
  rw [sortFragments_eq,
    Sorting.sort_eq_of_perm _ (nodup_components proper_neighbours walks_neighbours) perm]
  exact List.mergeSort_of_pairwise (by decide +kernel)

theorem scan_neighbours :
    (scan neighboursTop ⟨"doc"⟩).value = .ok ⟨⟨"doc"⟩, neighboursFiles⟩ := by
  rw [value_scan resolve_neighbours, walkEntries_neighbours, sortFragments_neighbours]

theorem loading_orderless_neighbours :
    Files.resolve neighboursTop ⟨"doc"⟩ = .ok (.directory neighbours) ∧
    (Node.directory neighbours).Proper ∧
    Walks ⟨"doc"⟩ (.directory neighbours) neighboursFound ∧
    Walks ⟨"doc"⟩ (.directory neighbours) neighboursFound.reverse ∧
    ∃ tree : Tree, (scan neighboursTop ⟨"doc"⟩).value = .ok tree ∧ tree.root = ⟨"doc"⟩ ∧
      sortFragments neighboursFound = tree.files ∧
      sortFragments neighboursFound.reverse = tree.files ∧
      Lists ⟨"doc"⟩ neighboursFound tree.files ∧
      Splits neighboursTop tree.files (tree.load neighboursTop).value :=
  have turned := walks_neighbours.of_perm (List.reverse_perm _).symm
  ⟨resolve_neighbours, proper_neighbours, walks_neighbours, turned,
    loading_orderless resolve_neighbours proper_neighbours walks_neighbours turned⟩

end ImplementorIndex.Fragment
