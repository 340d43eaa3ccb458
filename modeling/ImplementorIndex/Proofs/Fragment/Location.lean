import ImplementorIndex.Proofs.Path
import ImplementorIndex.Proofs.Text.Bytes

/-!
# Keys that survive their path

The path of a key is made by joining its segments, and the key of a path is read off its components.
Joining loses what does not show in components: parts that are empty or a single dot fall away, two
dots lead upwards, and a slash inside a segment cuts it in two. What comes back has no slash, and it is
shorter than the key whenever a segment fell away. So a key comes back exactly when it has directories,
each of them a proper name, and its last segment, which is written into the name of a file, is neither
empty nor cut. A path given as bytes has the key of the text that it spells; one name that is no text
leaves it without a key.
-/

namespace ImplementorIndex

theorem splitDoubleColon_ne_nil (text : List Char) : splitDoubleColon text ≠ [] := by
  fun_cases splitDoubleColon text with
  | case1 => simp
  | case2 rest => simp
  | case3 c rest _ => cases splitDoubleColon rest <;> simp [consFirst]

theorem intercalate_consFirst (c : Char) {pieces : List (List Char)} (some : pieces ≠ []) :
    [':', ':'].intercalate (consFirst c pieces) = c :: [':', ':'].intercalate pieces := by
  cases pieces with
  | nil => exact absurd rfl some
  | cons piece pieces =>
    cases pieces with
    | nil => simp [consFirst]
    | cons next pieces => simp [consFirst, List.intercalate_cons_cons]

theorem intercalate_splitDoubleColon (text : List Char) :
    [':', ':'].intercalate (splitDoubleColon text) = text := by
  fun_induction splitDoubleColon text with
  | case1 => rfl
  | case2 rest ih =>
    obtain ⟨piece, pieces, split⟩ := List.exists_cons_of_ne_nil (splitDoubleColon_ne_nil rest)
    rw [split] at ih ⊢
    rw [List.intercalate_cons_cons, ih]
    rfl
  | case3 c rest _ ih => rw [intercalate_consFirst c (splitDoubleColon_ne_nil rest), ih]

namespace TraitKey

theorem ofSegments_segments (key : TraitKey) : ofSegments key.segments = key := by
  have texts : (ofSegments key.segments).text = key.text := by
    apply String.toList_injective
    rw [ofSegments, String.toList_intercalate, segments, List.map_map]
    have same : String.toList ∘ String.ofList = id := by
      funext text
      exact String.toList_ofList
    rw [same, List.map_id]
    exact intercalate_splitDoubleColon key.text.toList
  cases key
  exact congrArg TraitKey.mk texts

theorem segments_ne_nil (key : TraitKey) : key.segments ≠ [] := by
  rw [segments, Ne, List.map_eq_nil_iff]
  exact splitDoubleColon_ne_nil key.text.toList

/-- What the segments before the last one take up in the text of a key. -/
def spread (directories : List String) : List Char :=
  directories.flatMap fun directory => directory.toList ++ [':', ':']

theorem toList_ofSegments (directories : List String) (name : String) :
    (ofSegments (directories ++ [name])).text.toList = spread directories ++ name.toList := by
  rw [ofSegments]
  induction directories with
  | nil => simp [spread]
  | cons directory directories ih =>
    have more : directories ++ [name] ≠ [] := by simp
    rw [List.cons_append, String.intercalate_cons_of_ne_nil more, String.toList_append, ih]
    simp [spread]

theorem slash_mem_ofSegments_iff {segments : List String} :
    '/' ∈ (ofSegments segments).text.toList ↔ ∃ segment ∈ segments, '/' ∈ segment.toList := by
  rcases List.eq_nil_or_concat' segments with rfl | ⟨directories, name, rfl⟩
  · decide
  · simp [toList_ofSegments, spread, or_and_right, exists_or]

theorem length_spread_cons (directory : String) (directories : List String) :
    (spread (directory :: directories)).length =
      directory.toList.length + 2 + (spread directories).length := by
  rw [spread, List.flatMap_cons, List.length_append, List.length_append]
  rfl

theorem length_spread_filter_le (kept : String → Bool) (directories : List String) :
    (spread (directories.filter kept)).length ≤ (spread directories).length := by
  induction directories with
  | nil => exact Nat.le_refl _
  | cons directory directories ih =>
    rw [List.filter_cons]
    split
    · rw [length_spread_cons, length_spread_cons]
      omega
    · rw [length_spread_cons]
      omega

/-- A key gets shorter when a segment before the last one is left out, even an empty one. -/
theorem filter_eq_of_ofSegments {directories : List String} {name : String} {kept : String → Bool}
    (same : ofSegments (directories.filter kept ++ [name]) = ofSegments (directories ++ [name])) :
    directories.filter kept = directories := by
  have texts := congrArg (fun key => key.text.toList) same
  simp only [toList_ofSegments] at texts
  have lengths := congrArg List.length (List.append_cancel_right texts)
  clear same texts
  induction directories with
  | nil => rfl
  | cons directory directories ih =>
    rw [List.filter_cons] at lengths ⊢
    split at lengths
    · rename_i stays
      rw [length_spread_cons, length_spread_cons] at lengths
      rw [if_pos stays, ih (by omega)]
    · have shorter := length_spread_filter_le kept directories
      rw [length_spread_cons] at lengths
      omega

end TraitKey

def fragmentFile (name : String) : String := fragmentStart ++ name ++ fragmentEnding

theorem toList_fragmentFile (name : String) :
    (fragmentFile name).toList = fragmentStart.toList ++ (name.toList ++ fragmentEnding.toList) := by
  rw [fragmentFile, String.toList_append, String.toList_append, List.append_assoc]

theorem traitName?_eq_some_iff {file name : String} :
    traitName? file = some name ↔ name ≠ "" ∧ file = fragmentFile name := by
  have cut : file = fragmentFile name ↔
      (Text.stripWord? fragmentStart.toList file.toList).bind
        (Text.stripEnding? fragmentEnding.toList) = some name.toList := by
    simp only [Option.bind_eq_some_iff, Text.stripWord?_eq_some_iff, Text.stripEnding?_eq_some_iff,
      ← String.toList_inj, toList_fragmentFile]
    exact ⟨fun whole => ⟨_, whole, rfl⟩, fun ⟨_, whole, ends⟩ => ends ▸ whole⟩
  rw [traitName?, cut]
  cases (Text.stripWord? fragmentStart.toList file.toList).bind
    (Text.stripEnding? fragmentEnding.toList) with
  | none => simp
  | some rest =>
    rw [Option.some.injEq]
    cases rest with
    | nil =>
      constructor
      · intro absent
        cases absent
      · rintro ⟨nonempty, empty⟩
        exact absurd (String.toList_inj.mp empty.symm) nonempty
    | cons c rest =>
      rw [Option.some.injEq, ← String.toList_inj, String.toList_ofList]
      refine ⟨fun same => ⟨?_, same⟩, fun whole => whole.2⟩
      rintro rfl
      exact List.cons_ne_nil _ _ same

theorem traitName?_fragmentFile (name : String) :
    traitName? (fragmentFile name) = if name = "" then none else some name := by
  split
  · rename_i empty
    subst empty
    rfl
  · rename_i nonempty
    exact traitName?_eq_some_iff.mpr ⟨nonempty, rfl⟩

theorem ProperName.fragmentFile {name : String} (undivided : '/' ∉ name.toList) :
    ProperName (fragmentFile name) := by
  have letter : 't' ∈ (ImplementorIndex.fragmentFile name).toList := by
    rw [toList_fragmentFile]
    exact List.mem_append_left _ (by decide)
  refine ⟨?_, ?_, ?_, ?_⟩
  · intro same
    simp [same] at letter
  · intro same
    simp [same] at letter
  · intro same
    simp [same] at letter
  · rw [toList_fragmentFile]
    simpa [fragmentStart, fragmentEnding] using undivided

theorem TraitKey.ofNames?_concat (directories : List String) (file : String) :
    ofNames? (directories ++ [file]) =
      if directories = [] then none
      else (traitName? file).map fun name => ofSegments (directories ++ [name]) := by
  unfold ofNames?
  rw [List.dropLast_concat, List.getLast?_concat]
  cases directories with
  | nil => rfl
  | cons directory directories => rfl

namespace Path

/-- A part that is not lost when it is joined to a path. -/
def stays (part : String) : Bool := part ≠ "" ∧ part ≠ "."

theorem namesOf?_parts {parts : List String} (undivided : ∀ part ∈ parts, '/' ∉ part.toList) :
    namesOf? (parts.filterMap fun part => Component.ofPart? part.toList) =
      if ".." ∈ parts then none else some (parts.filter stays) := by
  induction parts with
  | nil => rfl
  | cons part parts ih =>
    have rest : ∀ part ∈ parts, '/' ∉ part.toList :=
      fun part member => undivided part (List.mem_cons_of_mem _ member)
    have later : part ≠ ".." → (".." ∈ part :: parts ↔ ".." ∈ parts) := by
      intro other
      rw [List.mem_cons, or_iff_right other.symm]
    by_cases lost : part = "" ∨ part = "."
    · have nothing : Component.ofPart? part.toList = none := by
        rcases lost with rfl | rfl <;> rfl
      have gone : stays part = false := by
        rcases lost with rfl | rfl <;> rfl
      have other : part ≠ ".." := by
        rcases lost with rfl | rfl <;> decide
      simp only [List.filterMap_cons, nothing, List.filter_cons, gone, Bool.false_eq_true, if_false]
      rw [ih rest, if_congr (later other) rfl rfl]
    · rw [not_or] at lost
      by_cases upwards : part = ".."
      · subst upwards
        rfl
      · have proper : ProperName part :=
          ⟨lost.1, lost.2, upwards, undivided part List.mem_cons_self⟩
        have kept : stays part = true := by simp [stays, lost]
        simp only [List.filterMap_cons, proper.ofPart?_eq, List.filter_cons, kept, if_true]
        rw [namesOf?, ih rest, if_congr (later upwards) rfl rfl]
        split <;> rfl

end Path

namespace TraitKey

variable {key : TraitKey} {directories : List String} {name : String}

theorem fragmentPath_eq (segments : key.segments = directories ++ [name]) :
    key.fragmentPath = (⟨""⟩ : Path).below (directories ++ [fragmentFile name]) := by
  rw [Path.below, List.foldl_append]
  unfold fragmentPath
  rw [segments, List.dropLast_concat, List.getLast?_concat]
  rfl

/-- What comes back of a key without a slash: the segments that do not fall away, unless one leads
upwards, none is left before the last or the last is empty. -/
theorem ofPath?_fragmentPath (segments : key.segments = directories ++ [name])
    (undivided : ∀ segment ∈ key.segments, '/' ∉ segment.toList) :
    ofPath? key.fragmentPath =
      if ".." ∈ directories ∨ directories.filter Path.stays = [] ∨ name = "" then none
      else some (ofSegments (directories.filter Path.stays ++ [name])) := by
  rw [segments] at undivided
  have file : ProperName (fragmentFile name) := .fragmentFile (undivided name (by simp))
  have kept : Path.stays (fragmentFile name) = true := by
    simp [Path.stays, file.nonempty, file.notCurrent]
  have parts : ∀ part ∈ directories ++ [fragmentFile name], '/' ∉ part.toList := by
    intro part member
    rcases List.mem_append.mp member with before | last
    · exact undivided part (List.mem_append_left _ before)
    · rw [List.mem_singleton.mp last]
      exact file.undivided
  have up : ".." ∈ directories ++ [fragmentFile name] ↔ ".." ∈ directories := by
    rw [List.mem_append, List.mem_singleton, or_iff_left file.notParent.symm]
  rw [ofPath?, fragmentPath_eq segments, Path.namesOf?_below parts, Path.components_of_empty rfl,
    List.nil_append, Path.namesOf?_parts parts, if_congr up rfl rfl]
  by_cases upwards : ".." ∈ directories
  · simp [upwards]
  · rw [if_neg upwards, Option.bind_some, List.filter_append, List.filter_cons_of_pos kept,
      List.filter_nil, ofNames?_concat, traitName?_fragmentFile]
    by_cases none : directories.filter Path.stays = []
    · simp [none]
    · by_cases empty : name = ""
      · simp [empty]
      · simp [upwards, none, empty]

example : ofPath? (mk "core::.::Debug").fragmentPath = some ⟨"core::Debug"⟩ := by decide

/-- The key of a path has no slash. -/
theorem slash_notMem_of_ofPath? {path : Path} (found : ofPath? path = some key) :
    '/' ∉ key.text.toList := by
  obtain ⟨names, listed, found⟩ := Option.bind_eq_some_iff.mp found
  have undivided : ∀ name ∈ names, '/' ∉ name.toList :=
    fun name member => Path.slash_notMem_of_name_mem (Path.name_mem_of_namesOf? listed member)
  rcases List.eq_nil_or_concat' names with rfl | ⟨directories, file, rfl⟩
  · cases found
  · rw [ofNames?_concat] at found
    split at found
    · cases found
    · obtain ⟨name, named, rfl⟩ := Option.map_eq_some_iff.mp found
      obtain ⟨-, rfl⟩ := traitName?_eq_some_iff.mp named
      rw [slash_mem_ofSegments_iff]
      rintro ⟨segment, member, inside⟩
      rcases List.mem_append.mp member with before | last
      · exact undivided segment (List.mem_append_left _ before) inside
      · apply undivided (fragmentFile name) (by simp)
        rw [List.mem_singleton.mp last] at inside
        rw [toList_fragmentFile]
        exact List.mem_append_right _ (List.mem_append_left _ inside)

/-- A path given as bytes has the key of the text that it spells, and none if it spells no text. -/
theorem ofPathBytes?_eq_some_iff {bytes : ByteArray} :
    ofPathBytes? bytes = some key ↔
      ∃ path : Path, Text.bytes path.text = bytes.data.toList ∧ ofPath? path = some key := by
  simp only [ofPathBytes?, Option.bind_eq_some_iff, Text.fromUTF8?_eq_some_iff]
  constructor
  · rintro ⟨text, spelled, found⟩
    exact ⟨⟨text⟩, spelled, found⟩
  · rintro ⟨path, spelled, found⟩
    exact ⟨path.text, spelled, found⟩

/-- One name that is no text leaves a path without a key, whatever stands before and behind it. -/
theorem ofPathBytes?_eq_none {bytes : ByteArray} {front name back : List UInt8}
    (whole : bytes.data.toList = front ++ (name ++ back))
    (starts : front = [] ∨ ∃ before, front = before ++ ['/'.toUInt8])
    (ends : back = [] ∨ ∃ after, back = '/'.toUInt8 :: after)
    (noText : ∀ text : String, Text.bytes text ≠ name) : ofPathBytes? bytes = none := by
  cases found : ofPathBytes? bytes with
  | none => rfl
  | some key =>
    obtain ⟨path, spelled, -⟩ := ofPathBytes?_eq_some_iff.mp found
    rw [whole, Text.bytes_eq_flatMap] at spelled
    obtain ⟨later, behind⟩ : ∃ later, Text.utf8 later = name ++ back := by
      rcases starts with rfl | ⟨before, rfl⟩
      · exact ⟨_, spelled⟩
      · rw [List.append_assoc] at spelled
        obtain ⟨-, later, -, -, behind⟩ := Text.exists_of_utf8_eq_append (by decide) spelled
        exact ⟨later, behind⟩
    obtain ⟨text, own⟩ : ∃ text, Text.utf8 text = name := by
      rcases ends with rfl | ⟨after, rfl⟩
      · rw [List.append_nil] at behind
        exact ⟨_, behind⟩
      · obtain ⟨text, -, -, own, -⟩ := Text.exists_of_utf8_eq_append (by decide) behind
        exact ⟨text, own⟩
    refine absurd ?_ (noText (String.ofList text))
    rw [Text.bytes_eq_flatMap, String.toList_ofList]
    exact own

theorem own_path_of_undivided (segments : key.segments = directories ++ [name])
    (undivided : ∀ segment ∈ key.segments, '/' ∉ segment.toList) :
    ofPath? key.fragmentPath = some key ↔
      directories ≠ [] ∧ name ≠ "" ∧
      ∀ directory ∈ directories, directory ≠ "" ∧ directory ≠ "." ∧ directory ≠ ".." := by
  have whole : ofSegments (directories ++ [name]) = key := by
    rw [← segments, ofSegments_segments]
  have kept : directories.filter Path.stays = directories ↔
      ∀ directory ∈ directories, directory ≠ "" ∧ directory ≠ "." := by
    rw [List.filter_eq_self]
    simp only [Path.stays, decide_eq_true_eq]
  rw [ofPath?_fragmentPath segments undivided]
  constructor
  · intro back
    split at back
    · cases back
    · rename_i conditions
      simp only [not_or] at conditions
      obtain ⟨upwards, some, nonempty⟩ := conditions
      have all := filter_eq_of_ofSegments ((Option.some.inj back).trans whole.symm)
      rw [all] at some
      rw [kept] at all
      refine ⟨some, nonempty, fun directory member => ⟨(all directory member).1,
        (all directory member).2, ?_⟩⟩
      rintro rfl
      exact upwards member
  · rintro ⟨some, nonempty, proper⟩
    have all : directories.filter Path.stays = directories :=
      kept.mpr fun directory member => ⟨(proper directory member).1, (proper directory member).2.1⟩
    have upwards : ".." ∉ directories := fun member => (proper ".." member).2.2 rfl
    rw [all, whole, if_neg (by simp [upwards, some, nonempty])]

/-- A key is the key of its own path exactly when it has two segments or more, none of them empty or
cut by a slash, and the directories among them are not made of dots. -/
theorem own_path_iff (key : TraitKey) :
    ofPath? key.fragmentPath = some key ↔
      2 ≤ key.segments.length ∧
      (∀ segment ∈ key.segments, segment ≠ "" ∧ '/' ∉ segment.toList) ∧
      ∀ segment ∈ key.segments.dropLast, segment ≠ "." ∧ segment ≠ ".." := by
  obtain ⟨directories, name, segments⟩ :=
    (List.eq_nil_or_concat' key.segments).resolve_left key.segments_ne_nil
  have long : 2 ≤ key.segments.length ↔ directories ≠ [] := by
    rw [segments, List.length_append, List.length_singleton, ← List.length_pos_iff]
    omega
  constructor
  · intro back
    have undivided : ∀ segment ∈ key.segments, '/' ∉ segment.toList := by
      intro segment member inside
      apply slash_notMem_of_ofPath? back
      rw [← ofSegments_segments key]
      exact slash_mem_ofSegments_iff.mpr ⟨segment, member, inside⟩
    obtain ⟨some, nonempty, proper⟩ := (own_path_of_undivided segments undivided).mp back
    refine ⟨long.mpr some, ?_, ?_⟩
    · intro segment member
      refine ⟨?_, undivided segment member⟩
      rw [segments] at member
      rcases List.mem_append.mp member with before | last
      · exact (proper segment before).1
      · rwa [List.mem_singleton.mp last]
    · rw [segments, List.dropLast_concat]
      exact fun segment member => (proper segment member).2
  · rintro ⟨two, sound, downwards⟩
    apply (own_path_of_undivided segments fun segment member => (sound segment member).2).mpr
    rw [segments] at sound downwards
    rw [List.dropLast_concat] at downwards
    refine ⟨long.mp two, (sound name (by simp)).1, fun directory member => ⟨?_, ?_⟩⟩
    · exact (sound directory (List.mem_append_left _ member)).1
    · exact downwards directory member

end TraitKey

end ImplementorIndex
