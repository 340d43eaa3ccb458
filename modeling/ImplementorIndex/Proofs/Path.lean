import ImplementorIndex.Fragment.Location
import ImplementorIndex.Proofs.Order

/-!
# Names below a path

Joining a name to a path adds one component at its end, whatever the path looks like: empty, with a
slash at its end or with parts that fall away. So the components of a path below a root are those of
the root and then the names. Paths are compared by their components, the first difference deciding,
and names by their bytes.
-/

namespace ImplementorIndex

/-- A name that an entry of a directory can have. -/
structure ProperName (name : String) : Prop where
  nonempty : name ≠ ""
  notCurrent : name ≠ "."
  notParent : name ≠ ".."
  undivided : '/' ∉ name.toList

instance (name : String) : Decidable (ProperName name) :=
  decidable_of_iff (name ≠ "" ∧ name ≠ "." ∧ name ≠ ".." ∧ '/' ∉ name.toList)
    ⟨fun ⟨a, b, c, d⟩ => ⟨a, b, c, d⟩, fun ⟨a, b, c, d⟩ => ⟨a, b, c, d⟩⟩

theorem splitSlash_ne_nil (text : List Char) : splitSlash text ≠ [] := by
  cases text with
  | nil => simp [splitSlash]
  | cons c text =>
    rw [splitSlash]
    split
    · simp
    · cases splitSlash text <;> simp [consFirst]

theorem consFirst_append (c : Char) {pieces : List (List Char)} (ne : pieces ≠ [])
    (more : List (List Char)) : consFirst c (pieces ++ more) = consFirst c pieces ++ more := by
  cases pieces with
  | nil => exact absurd rfl ne
  | cons piece pieces => rfl

theorem splitSlash_append_slash (text rest : List Char) :
    splitSlash (text ++ '/' :: rest) = splitSlash text ++ splitSlash rest := by
  induction text with
  | nil => simp [splitSlash]
  | cons c text ih =>
    rw [List.cons_append, splitSlash, splitSlash, ih]
    split
    · rfl
    · exact consFirst_append c (splitSlash_ne_nil text) _

theorem eq_nil_of_splitSlash {text : List Char} (single : splitSlash text = [[]]) : text = [] := by
  cases text with
  | nil => rfl
  | cons c text =>
    rw [splitSlash] at single
    split at single
    · exact absurd (List.cons.inj single).2 (splitSlash_ne_nil text)
    · cases parts : splitSlash text with
      | nil => exact absurd parts (splitSlash_ne_nil text)
      | cons first rest => simp [parts, consFirst] at single

theorem splitSlash_of_undivided {name : List Char} (undivided : '/' ∉ name) :
    splitSlash name = [name] := by
  induction name with
  | nil => rfl
  | cons c name ih =>
    rw [List.mem_cons, not_or] at undivided
    have other : c ≠ '/' := fun same => undivided.1 same.symm
    rw [splitSlash, if_neg other, ih undivided.2]
    rfl

theorem slash_notMem_of_mem_splitSlash {text part : List Char} (member : part ∈ splitSlash text) :
    '/' ∉ part := by
  induction text generalizing part with
  | nil =>
    rw [splitSlash, List.mem_singleton] at member
    simp [member]
  | cons c text ih =>
    rw [splitSlash] at member
    split at member
    · rcases List.mem_cons.mp member with rfl | later
      · exact List.not_mem_nil
      · exact ih later
    · rename_i other
      cases split : splitSlash text with
      | nil => exact absurd split (splitSlash_ne_nil text)
      | cons first rest =>
        rw [split, consFirst] at member
        rw [split] at ih
        rcases List.mem_cons.mp member with rfl | later
        · rw [List.mem_cons, not_or]
          exact ⟨fun same => other same.symm, ih List.mem_cons_self⟩
        · exact ih (List.mem_cons_of_mem _ later)

theorem Component.eq_ofList_of_ofPart? {part : List Char} {name : String}
    (amounts : ofPart? part = some (.name name)) : name = String.ofList part := by
  unfold ofPart? at amounts
  split_ifs at amounts
  · cases amounts
  · cases amounts
    rfl

namespace Path

theorem front_cons {first : List Char} (ne : first ≠ []) (rest : List (List Char)) :
    front (first :: rest) = if first = ['.'] then [.current] else [] := by
  by_cases dot : first = ['.']
  · subst dot
    rfl
  · rw [if_neg dot]
    unfold front
    split
    · rename_i same
      exact absurd (List.cons.inj same).1 ne
    · rename_i same
      exact absurd (List.cons.inj same).1 dot
    · rfl

/-- What stands at the front is seen from the first part, unless that is empty and the only one. -/
theorem front_append {parts : List (List Char)} (some : parts ≠ []) (ne : parts ≠ [[]])
    (more : List (List Char)) : front (parts ++ more) = front parts := by
  cases parts with
  | nil => exact absurd rfl some
  | cons first rest =>
    by_cases empty : first = []
    · subst empty
      cases rest with
      | nil => exact absurd rfl ne
      | cons second rest => rfl
    · rw [List.cons_append, front_cons empty, front_cons empty]

theorem front_concat {parts : List (List Char)} (some : parts ≠ []) (last other : List Char) :
    front (parts ++ [last]) = front (parts ++ [other]) := by
  by_cases single : parts = [[]]
  · subst single
    rfl
  · rw [front_append some single, front_append some single]

theorem components_of_empty {path : Path} (empty : path.text.toList = []) :
    path.components = [] := by
  rw [components, empty]
  rfl

theorem name_notMem_front {parts : List (List Char)} {name : String} : .name name ∉ front parts := by
  unfold front
  split <;> simp

/-- What a path names is a part of it, so it has no slash. -/
theorem slash_notMem_of_name_mem {path : Path} {name : String}
    (member : .name name ∈ path.components) : '/' ∉ name.toList := by
  rw [components, List.mem_append, List.mem_filterMap] at member
  rcases member with ahead | ⟨part, stands, amounts⟩
  · exact absurd ahead name_notMem_front
  · rw [Component.eq_ofList_of_ofPart? amounts, String.toList_ofList]
    exact slash_notMem_of_mem_splitSlash stands

variable {part : String} (undivided : '/' ∉ part.toList)

include undivided

theorem isAbsolute_of_undivided : (Path.mk part).isAbsolute = false := by
  rw [isAbsolute, decide_eq_false_iff_not]
  intro first
  exact undivided (List.mem_of_head? first)

theorem components_of_slash {path : Path} {text : List Char}
    (written : path.text.toList = text ++ '/' :: part.toList) :
    path.components = front (splitSlash text ++ [[]]) ++
      (splitSlash text).filterMap Component.ofPart? ++ (Component.ofPart? part.toList).toList := by
  have parts : splitSlash path.text.toList = splitSlash text ++ [part.toList] := by
    rw [written, splitSlash_append_slash, splitSlash_of_undivided undivided]
  rw [components, parts, front_concat (splitSlash_ne_nil text) part.toList [],
    List.filterMap_append, List.append_assoc]
  cases found : Component.ofPart? part.toList with
  | none => simp [found]
  | some component => simp [found]

/-- A part without a slash adds what it amounts to at the end. Joined to the empty path it is the whole
path, and a dot then stands at the front. -/
theorem components_join (path : Path) :
    (path.join ⟨part⟩).components =
      (if path.text.toList = [] then front [part.toList] else path.components) ++
        (Component.ofPart? part.toList).toList := by
  unfold join
  rw [isAbsolute_of_undivided undivided, if_neg Bool.false_ne_true]
  rcases List.eq_nil_or_concat' path.text.toList with empty | ⟨initial, last, ends⟩
  · rw [if_pos empty, empty, components, List.getLast?_nil]
    simp only [splitSlash_of_undivided undivided]
    cases found : Component.ofPart? part.toList with
    | none => simp [found]
    | some component => simp [found]
  · have some : path.text.toList ≠ [] := by simp [ends]
    rw [if_neg some, ends, List.getLast?_concat]
    by_cases slash : last = '/'
    · subst slash
      have text : (path.text ++ part).toList = initial ++ '/' :: part.toList := by
        rw [String.toList_append, ends, List.append_assoc, List.singleton_append]
      show (Path.mk (path.text ++ part)).components = _
      rw [components_of_slash undivided text, components, ends, splitSlash_append_slash]
      simp [splitSlash, Component.ofPart?]
    · have text : (path.text ++ "/" ++ part).toList = path.text.toList ++ '/' :: part.toList := by
        simp
      have single : splitSlash path.text.toList ≠ [[]] := by
        intro single
        exact some (eq_nil_of_splitSlash single)
      have joined := components_of_slash undivided text
      rw [front_append (splitSlash_ne_nil _) single] at joined
      simp only [components] at joined ⊢
      simpa [slash] using joined

end Path

namespace ProperName

variable {name : String}

theorem toList_ne {text : List Char} (ne : name ≠ String.ofList text) : name.toList ≠ text := by
  intro same
  apply ne
  rw [← same, String.ofList_toList]

variable (proper : ProperName name)

include proper

theorem ofPart?_eq : Component.ofPart? name.toList = some (.name name) := by
  unfold Component.ofPart?
  rw [if_neg (toList_ne proper.nonempty), if_neg (toList_ne proper.notCurrent),
    if_neg (toList_ne proper.notParent), String.ofList_toList]

theorem front_eq : Path.front [name.toList] = [] := by
  rw [Path.front_cons (toList_ne proper.nonempty), if_neg (toList_ne proper.notCurrent)]

/-- A name joined to a path becomes its last component. -/
theorem components_join (path : Path) :
    (path.join ⟨name⟩).components = path.components ++ [.name name] := by
  rw [Path.components_join proper.undivided, proper.ofPart?_eq, Option.toList_some]
  split
  · rename_i empty
    rw [Path.components_of_empty empty, proper.front_eq]
  · rfl

end ProperName

namespace Path

def below (path : Path) (names : List String) : Path :=
  names.foldl (fun path name => path.join ⟨name⟩) path

@[simp] theorem below_nil (path : Path) : path.below [] = path := rfl

@[simp] theorem below_cons (path : Path) (name : String) (names : List String) :
    path.below (name :: names) = (path.join ⟨name⟩).below names := rfl

theorem components_below {names : List String} (proper : ∀ name ∈ names, ProperName name)
    (path : Path) : (path.below names).components = path.components ++ names.map .name := by
  induction names generalizing path with
  | nil => simp
  | cons name names ih =>
    have first := proper name List.mem_cons_self
    have rest : ∀ name ∈ names, ProperName name :=
      fun name member => proper name (List.mem_cons_of_mem _ member)
    rw [below_cons, ih rest, first.components_join, List.append_assoc, List.singleton_append,
      List.map_cons]

theorem namesOf?_map_name (names : List String) : namesOf? (names.map .name) = some names := by
  induction names with
  | nil => rfl
  | cons name names ih => rw [List.map_cons, namesOf?, ih, Option.map_some]

theorem namesOf?_append (first second : List Component) :
    namesOf? (first ++ second) =
      (namesOf? first).bind fun names => (namesOf? second).map (names ++ ·) := by
  induction first with
  | nil => simp [namesOf?]
  | cons component first ih =>
    cases component with
    | name text =>
      rw [List.cons_append, namesOf?, namesOf?, ih]
      cases namesOf? first <;> cases namesOf? second <;> rfl
    | current => rw [List.cons_append, namesOf?, namesOf?, ih]
    | root => rfl
    | parent => rfl

theorem name_mem_of_namesOf? {components : List Component} {names : List String}
    (found : namesOf? components = some names) {name : String} (member : name ∈ names) :
    .name name ∈ components := by
  induction components generalizing names with
  | nil =>
    cases found
    cases member
  | cons component components ih =>
    cases component with
    | name text =>
      rw [namesOf?, Option.map_eq_some_iff] at found
      obtain ⟨names, found, rfl⟩ := found
      rcases List.mem_cons.mp member with rfl | later
      · exact List.mem_cons_self
      · exact List.mem_cons_of_mem _ (ih found later)
    | current => exact List.mem_cons_of_mem _ (ih found member)
    | root => cases found
    | parent => cases found

/-- A dot in front of the first part does not show in the names. -/
theorem namesOf?_join {part : String} (undivided : '/' ∉ part.toList) (path : Path) :
    namesOf? (path.join ⟨part⟩).components =
      namesOf? (path.components ++ (Component.ofPart? part.toList).toList) := by
  rw [components_join undivided, namesOf?_append, namesOf?_append]
  split
  · rename_i empty
    rw [components_of_empty empty]
    by_cases blank : part.toList = []
    · rw [blank]
      rfl
    · rw [front_cons blank]
      split <;> rfl
  · rfl

theorem namesOf?_below {parts : List String} (undivided : ∀ part ∈ parts, '/' ∉ part.toList)
    (path : Path) : namesOf? (path.below parts).components =
      namesOf? (path.components ++ parts.filterMap fun part => Component.ofPart? part.toList) := by
  simp only [List.filterMap_eq_flatMap_toList]
  induction parts generalizing path with
  | nil => simp
  | cons part parts ih =>
    have rest : ∀ part ∈ parts, '/' ∉ part.toList :=
      fun part member => undivided part (List.mem_cons_of_mem _ member)
    rw [below_cons, ih rest, namesOf?_append, namesOf?_join (undivided part List.mem_cons_self),
      ← namesOf?_append, List.flatMap_cons, List.append_assoc]

/-- The key of a relative path is read off its names. -/
theorem ofPath?_below {names : List String} (proper : ∀ name ∈ names, ProperName name) :
    TraitKey.ofPath? ((⟨""⟩ : Path).below names) = TraitKey.ofNames? names := by
  have relative : ((⟨""⟩ : Path).below names).components = names.map .name :=
    components_below proper ⟨""⟩
  rw [TraitKey.ofPath?, relative, namesOf?_map_name, Option.bind_some]

end Path

namespace Component

/-- The order of components: by their kind, and names by their bytes. -/
inductive Before : Component → Component → Prop where
  | kind {a b : Component} (less : a.rank < b.rank) : Before a b
  | names {a b : String} (less : Text.bytes a < Text.bytes b) : Before (.name a) (.name b)

def label : Component → String
  | name text => text
  | _ => ""

theorem compare_eq (a b : Component) :
    compare a b = compareLex (compareOn rank) (compareOn label) a b := by
  cases a <;> cases b <;> rfl

instance : Std.TransOrd Component := by
  have lexicographic : (compare : Component → Component → Ordering) =
      compareLex (compareOn rank) (compareOn label) := by
    funext a b
    exact compare_eq a b
  unfold Std.TransOrd
  rw [lexicographic]
  infer_instance

theorem eq_of_rank_of_label {a b : Component} (rank : a.rank = b.rank) (label : a.label = b.label) :
    a = b := by
  cases a <;> cases b <;> simp_all [Component.rank, Component.label]

instance : Std.LawfulEqOrd Component where
  compare_self := Std.ReflCmp.compare_self
  eq_of_compare := by
    intro a b same
    rw [compare_eq, compareLex_eq_eq] at same
    exact eq_of_rank_of_label (Std.LawfulEqCmp.eq_of_compare same.1)
      (Std.LawfulEqCmp.eq_of_compare same.2)

theorem compare_eq_lt_iff {a b : Component} : compare a b = .lt ↔ Before a b := by
  have split : compare a b = .lt ↔ a.rank < b.rank ∨ a.rank = b.rank ∧ a.label < b.label := by
    rw [compare_eq, compareLex, Ordering.then_eq_lt]
    simp only [compareOn, Nat.compare_eq_lt, Nat.compare_eq_eq, Text.compare_eq_lt_iff]
  rw [split]
  constructor
  · rintro (less | ⟨same, less⟩)
    · exact .kind less
    · cases a with
      | name a =>
        cases b with
        | name b => exact .names (Text.bytes_lt_bytes_iff.mpr less)
        | _ => simp [rank] at same
      | _ =>
        cases b with
        | name b => simp [rank] at same
        | _ => exact absurd less (by simp [label])
  · intro before
    cases before with
    | kind less => exact .inl less
    | names less => exact .inr ⟨rfl, Text.bytes_lt_bytes_iff.mp less⟩

end Component

namespace Path

theorem compare_eq (a b : Path) : compare a b = compare a.components b.components := by
  show compareComponents a.components b.components = _
  generalize a.components = first, b.components = second
  induction first generalizing second with
  | nil =>
    cases second with
    | nil => rfl
    | cons b second => rfl
  | cons a first ih =>
    cases second with
    | nil => rfl
    | cons b second => rw [compareComponents, ih, List.compare_eq_compareLex, List.compareLex_cons_cons]

theorem compare_components_eq_lt_iff {a b : List Component} :
    compare a b = .lt ↔ List.Lex Component.Before a b := by
  induction a generalizing b with
  | nil =>
    cases b with
    | nil => simp
    | cons second b => simp
  | cons first a ih =>
    cases b with
    | nil => simp
    | cons second b =>
      rw [List.compare_eq_compareLex, List.compareLex_cons_cons, Ordering.then_eq_lt,
        Component.compare_eq_lt_iff, List.cons_lex_cons_iff, ← List.compare_eq_compareLex, ih,
        Std.compare_eq_iff_eq]

end Path

end ImplementorIndex
