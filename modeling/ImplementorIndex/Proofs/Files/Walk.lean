import ImplementorIndex.Files.Lookup
import ImplementorIndex.Proofs.Path
import ImplementorIndex.Proofs.Rows

/-!
# What a walk yields

A walk through a directory meets every file below it that can be reached through directories whose
paths are not too long, and every directory where it gets stuck, each of them once. In which order it
meets them is up to the walk: `Walks` says what all walks of a directory have in common, and the walk
that goes through the entries as they are listed is one of them.
-/

namespace ImplementorIndex.Files

def Found.path : Found → Path
  | file path _ => path
  | unlistable path => path

/-- A tree that can stand on a disk: the entries of a directory have names of their own. -/
inductive Node.Proper : Node → Prop where
  | file (content : ByteArray) : Proper (.file content)
  | link (target : Path) : Proper (.link target)
  | directory {entries : List (String × Node)} (distinct : (Rows.keys entries).Nodup)
    (named : ∀ entry ∈ entries, ProperName entry.1) (below : ∀ entry ∈ entries, Proper entry.2) :
    Proper (.directory entries)

mutual

def Node.isProper : Node → Bool
  | .file _ => true
  | .link _ => true
  | .directory entries => decide (Rows.keys entries).Nodup && areProper entries

def areProper : List (String × Node) → Bool
  | [] => true
  | (name, node) :: rest => decide (ProperName name) && node.isProper && areProper rest

end

mutual

theorem Node.isProper_iff : (node : Node) → (node.isProper ↔ node.Proper)
  | .file content => ⟨fun _ => .file content, fun _ => by rw [Node.isProper]⟩
  | .link target => ⟨fun _ => .link target, fun _ => by rw [Node.isProper]⟩
  | .directory entries => by
    rw [Node.isProper, Bool.and_eq_true, decide_eq_true_iff, areProper_iff]
    constructor
    · rintro ⟨distinct, proper⟩
      exact .directory distinct (fun entry member => (proper entry member).1)
        (fun entry member => (proper entry member).2)
    · intro proper
      cases proper with
      | directory distinct named below =>
        exact ⟨distinct, fun entry member => ⟨named entry member, below entry member⟩⟩

theorem areProper_iff : (entries : List (String × Node)) →
    (areProper entries ↔ ∀ entry ∈ entries, ProperName entry.1 ∧ entry.2.Proper)
  | [] => by simp [areProper]
  | (name, node) :: rest => by
    rw [areProper, Bool.and_eq_true, Bool.and_eq_true, decide_eq_true_iff, Node.isProper_iff,
      areProper_iff, List.forall_mem_cons]

end

instance (node : Node) : Decidable node.Proper := decidable_of_iff _ node.isProper_iff

/-- On the way from a path down over names every directory can be listed. -/
def Open : Path → List String → Prop
  | _, [] => True
  | path, name :: rest => path.byteSize ≤ pathLimit ∧ Open (path.join ⟨name⟩) rest

/-- What there is to meet below a node that stands at a path and was reached over names. -/
inductive Yields (path : Path) (front : List String) (node : Node) : Found → Prop where
  | file {names : List String} {content : ByteArray}
    (there : nodeAt? names node = some (.file content)) (way : Open path names) :
    Yields path front node (.file (path.below names) (front ++ names))
  | unlistable {names : List String} {entries : List (String × Node)}
    (there : nodeAt? names node = some (.directory entries)) (way : Open path names)
    (long : pathLimit < (path.below names).byteSize) :
    Yields path front node (.unlistable (path.below names))

/-- A list of what a walk through a directory met: all there is, each once, in any order. -/
structure Walks (root : Path) (directory : Node) (found : List Found) : Prop where
  once : found.Nodup
  all : ∀ item, item ∈ found ↔ Yields root [] directory item

variable {path : Path} {front names : List String} {node : Node} {entries : List (String × Node)}
  {item : Found}

/-- Nothing stands below what is no directory. -/
theorem eq_of_nodeAt?_of_leaf {found : Node} (leaf : ∀ entries, node ≠ .directory entries)
    (there : nodeAt? names node = some found) : names = [] ∧ found = node := by
  cases names with
  | nil => exact ⟨rfl, (Option.some.inj there).symm⟩
  | cons name names =>
    cases node with
    | file content => cases there
    | link target => cases there
    | directory entries => exact absurd rfl (leaf entries)

theorem yields_file_iff {content : ByteArray} :
    Yields path front (.file content) item ↔ item = .file path front := by
  constructor
  · intro yields
    cases yields with
    | file there way =>
      obtain ⟨rfl, -⟩ := eq_of_nodeAt?_of_leaf (by simp) there
      rw [List.append_nil, Path.below_nil]
    | unlistable there way long =>
      obtain ⟨-, same⟩ := eq_of_nodeAt?_of_leaf (by simp) there
      cases same
  · rintro rfl
    have yields : Yields path front (.file content) (.file (path.below []) (front ++ [])) :=
      .file rfl trivial
    rwa [List.append_nil] at yields

theorem not_yields_link {target : Path} : ¬ Yields path front (.link target) item := by
  intro yields
  cases yields with
  | file there way =>
    obtain ⟨-, same⟩ := eq_of_nodeAt?_of_leaf (by simp) there
    cases same
  | unlistable there way long =>
    obtain ⟨-, same⟩ := eq_of_nodeAt?_of_leaf (by simp) there
    cases same

theorem yields_entry {entry : String × Node} (distinct : (Rows.keys entries).Nodup)
    (short : path.byteSize ≤ pathLimit) (member : entry ∈ entries)
    (yields : Yields (path.join ⟨entry.1⟩) (front ++ [entry.1]) entry.2 item) :
    Yields path front (.directory entries) item := by
  have listed : Rows.find? entry.1 entries = some entry.2 :=
    (Rows.find?_eq_some_iff distinct).mpr member
  have lower : ∀ names, nodeAt? (entry.1 :: names) (.directory entries) = nodeAt? names entry.2 := by
    intro names
    rw [nodeAt?, listed, Option.bind_some]
  cases yields with
  | @file names content there way =>
    rw [List.append_assoc, List.singleton_append, ← Path.below_cons]
    exact .file ((lower names).trans there) ⟨short, way⟩
  | @unlistable names _ there way long =>
    rw [← Path.below_cons] at long ⊢
    exact .unlistable ((lower names).trans there) ⟨short, way⟩ long

theorem exists_entry_of_nodeAt? {name : String} {found : Node}
    (there : nodeAt? (name :: names) (.directory entries) = some found) :
    ∃ node, (name, node) ∈ entries ∧ nodeAt? names node = some found := by
  obtain ⟨node, listed, there⟩ := Option.bind_eq_some_iff.mp there
  exact ⟨node, Rows.mem_of_find? listed, there⟩

/-- Below a directory that can be listed there is what there is below its entries. -/
theorem yields_directory_iff (distinct : (Rows.keys entries).Nodup)
    (short : path.byteSize ≤ pathLimit) :
    Yields path front (.directory entries) item ↔
      ∃ entry ∈ entries, Yields (path.join ⟨entry.1⟩) (front ++ [entry.1]) entry.2 item := by
  constructor
  · intro yields
    cases yields with
    | @file names content there way =>
      cases names with
      | nil => cases there
      | cons name names =>
        obtain ⟨node, member, there⟩ := exists_entry_of_nodeAt? there
        have yields : Yields (path.join ⟨name⟩) (front ++ [name]) node _ := .file there way.2
        rw [List.append_assoc, List.singleton_append] at yields
        exact ⟨(name, node), member, yields⟩
    | @unlistable names listed there way long =>
      cases names with
      | nil =>
        rw [Path.below_nil] at long
        omega
      | cons name names =>
        obtain ⟨node, member, there⟩ := exists_entry_of_nodeAt? there
        exact ⟨(name, node), member, .unlistable there way.2 long⟩
  · rintro ⟨entry, member, yields⟩
    exact yields_entry distinct short member yields

theorem yields_of_long (long : pathLimit < path.byteSize) :
    Yields path front (.directory entries) item ↔ item = .unlistable path := by
  constructor
  · intro yields
    cases yields with
    | @file names content there way =>
      cases names with
      | nil => cases there
      | cons name names =>
        have short := way.1
        omega
    | @unlistable names listed there way _ =>
      cases names with
      | nil => rw [Path.below_nil]
      | cons name names =>
        have short := way.1
        omega
  · rintro rfl
    exact @Yields.unlistable path front _ [] _ rfl trivial long

theorem walkEntries_eq (path : Path) (names : List String) (entries : List (String × Node)) :
    walkEntries path names entries =
      entries.flatMap fun entry => walkNode (path.join ⟨entry.1⟩) (entry.1 :: names) entry.2 := by
  induction entries with
  | nil => rw [walkEntries, List.flatMap_nil]
  | cons entry entries ih => rw [walkEntries, ih, List.flatMap_cons]

theorem mem_walkNode (proper : node.Proper) :
    item ∈ walkNode path names node ↔ Yields path names.reverse node item := by
  induction proper generalizing path names with
  | file content => rw [walkNode, yields_file_iff, List.mem_singleton]
  | link target =>
    rw [walkNode]
    simp [not_yields_link]
  | directory distinct named below ih =>
    rw [walkNode]
    split
    · rw [yields_of_long ‹_›, List.mem_singleton]
    · rw [yields_directory_iff distinct (by omega), walkEntries_eq, List.mem_flatMap]
      apply exists_congr
      intro entry
      apply and_congr_right
      intro member
      rw [ih entry member, List.reverse_cons]

theorem properName_of_nodeAt? (proper : node.Proper) {found : Node}
    (there : nodeAt? names node = some found) : ∀ name ∈ names, ProperName name := by
  induction names generalizing node with
  | nil => simp
  | cons first names ih =>
    cases proper with
    | file content => cases there
    | link target => cases there
    | directory distinct named below =>
      obtain ⟨node, member, there⟩ := exists_entry_of_nodeAt? there
      intro name among
      rcases List.mem_cons.mp among with rfl | later
      · exact named _ member
      · exact ih (below _ member) there name later

/-- What is met below a path lies below it. -/
theorem components_of_yields (proper : node.Proper) (yields : Yields path front node item) :
    path.components <+: item.path.components := by
  cases yields with
  | file there way =>
    have named := properName_of_nodeAt? proper there
    exact ⟨_, (Path.components_below named path).symm⟩
  | unlistable there way long =>
    have named := properName_of_nodeAt? proper there
    exact ⟨_, (Path.components_below named path).symm⟩

theorem nodup_walkNode (proper : node.Proper) : (walkNode path names node).Nodup := by
  induction proper generalizing path names with
  | file content =>
    rw [walkNode]
    exact List.nodup_singleton _
  | link target =>
    rw [walkNode]
    exact List.nodup_nil
  | @directory entries distinct named below ih =>
    rw [walkNode]
    split
    · exact List.nodup_singleton _
    · rw [walkEntries_eq, List.nodup_flatMap]
      refine ⟨fun entry member => ih entry member, ?_⟩
      -- What is met below two entries lies below different components.
      have apart : entries.Pairwise fun a b => a.1 ≠ b.1 := List.pairwise_map.mp distinct
      refine apart.imp_of_mem ?_
      intro a b first second ne item left right
      rw [mem_walkNode (below a first)] at left
      rw [mem_walkNode (below b second)] at right
      have start := components_of_yields (below a first) left
      have other := components_of_yields (below b second) right
      rw [(named a first).components_join] at start
      rw [(named b second).components_join] at other
      have same := List.prefix_of_prefix_length_le start other (by simp)
      have last := List.append_cancel_left (same.eq_of_length (by simp))
      simp only [List.cons.injEq, Component.name.injEq, and_true] at last
      exact ne last

theorem below_of_yields {root : Path} (proper : node.Proper)
    (yields : Yields root [] node (.file path names)) :
    path = root.below names ∧ ∀ name ∈ names, ProperName name := by
  cases yields with
  | file there way => exact ⟨rfl, properName_of_nodeAt? proper there⟩

theorem Walks.of_perm {root : Path} {found other : List Found} (walks : Walks root node found)
    (perm : found.Perm other) : Walks root node other := by
  refine ⟨perm.nodup_iff.mp walks.once, ?_⟩
  intro item
  rw [← walks.all, perm.mem_iff]

theorem Walks.perm {root : Path} {found other : List Found} (walks : Walks root node found)
    (walks' : Walks root node other) : found.Perm other := by
  rw [List.perm_ext_iff_of_nodup walks.once walks'.once]
  intro item
  rw [walks.all, walks'.all]

theorem walks_walkEntries (proper : (Node.directory entries).Proper) {root : Path}
    (short : root.byteSize ≤ pathLimit) :
    Walks root (.directory entries) (walkEntries root [] entries) := by
  have same : walkNode root [] (.directory entries) = walkEntries root [] entries := by
    rw [walkNode, if_neg (by omega)]
  rw [← same]
  exact ⟨nodup_walkNode proper, fun item => mem_walkNode proper⟩

theorem byteSize_of_resolve {top : Node} (resolved : resolve top path = .ok node) :
    path.byteSize ≤ pathLimit := by
  by_contra long
  have refused : ∃ problem, checkPath path = .error problem := by
    unfold checkPath
    split
    · exact ⟨_, rfl⟩
    · split
      · exact ⟨_, rfl⟩
      · exact ⟨_, if_pos (by omega)⟩
  obtain ⟨problem, refused⟩ := refused
  rw [resolve, refused] at resolved
  cases resolved

end ImplementorIndex.Files
