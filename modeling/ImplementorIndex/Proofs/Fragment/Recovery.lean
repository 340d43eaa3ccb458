import ImplementorIndex.Proofs.Fragment.Location

/-!
# Paths that come back from their key

The key of a path joins its directories and the name of its trait with double colons, and the path of
a key cuts the key at the leftmost double colons again. Cutting finds the joints where no part holds a
double colon and no directory ends with a colon, which would move the joint behind it one place to the
left. What cutting finds always has this form, so there is no other way to come back.
-/

namespace ImplementorIndex

/-- Pieces, the last one given apart, that are cut where they were joined. -/
structure Joinable (pieces : List (List Char)) (last : List Char) : Prop where
  whole : ∀ piece ∈ pieces ++ [last], ¬ [':', ':'] <:+: piece
  closed : ∀ piece ∈ pieces, piece.getLast? ≠ some ':'

theorem splitDoubleColon_cons {c : Char} {text : List Char} (joint : ¬ [':', ':'] <+: c :: text) :
    splitDoubleColon (c :: text) = consFirst c (splitDoubleColon text) := by
  rw [splitDoubleColon]
  intro rest first second
  apply joint
  rw [first, second]
  exact ⟨rest, rfl⟩

theorem splitDoubleColon_of_whole {piece : List Char} (whole : ¬ [':', ':'] <:+: piece) :
    splitDoubleColon piece = [piece] := by
  induction piece with
  | nil => rfl
  | cons c piece ih =>
    rw [List.infix_cons_iff, not_or] at whole
    rw [splitDoubleColon_cons whole.1, ih whole.2]
    rfl

theorem splitDoubleColon_joint {piece : List Char} (whole : ¬ [':', ':'] <:+: piece)
    (closed : piece.getLast? ≠ some ':') (rest : List Char) :
    splitDoubleColon (piece ++ ':' :: ':' :: rest) = piece :: splitDoubleColon rest := by
  induction piece with
  | nil => rfl
  | cons c piece ih =>
    rw [List.infix_cons_iff, not_or] at whole
    cases piece with
    | nil =>
      have other : c ≠ ':' := by
        intro colon
        apply closed
        rw [colon]
        rfl
      have joint : ¬ [':', ':'] <+: c :: ':' :: ':' :: rest := by
        intro begins
        apply other
        simpa [eq_comm] using begins
      exact splitDoubleColon_cons joint
    | cons d piece =>
      have joint : ¬ [':', ':'] <+: c :: (d :: piece ++ ':' :: ':' :: rest) := by
        intro begins
        apply whole.1
        simpa using begins
      rw [List.getLast?_cons_cons] at closed
      rw [List.cons_append, splitDoubleColon_cons joint, ih whole.2 closed]
      rfl

theorem Joinable.splitDoubleColon_eq {pieces : List (List Char)} {last : List Char}
    (joinable : Joinable pieces last) :
    splitDoubleColon (pieces.flatMap (· ++ [':', ':']) ++ last) = pieces ++ [last] := by
  obtain ⟨whole, closed⟩ := joinable
  induction pieces with
  | nil => exact splitDoubleColon_of_whole (whole last List.mem_cons_self)
  | cons piece pieces ih =>
    have rest := ih (fun other member => whole other (List.mem_cons_of_mem _ member))
      (fun other member => closed other (List.mem_cons_of_mem _ member))
    have joint := splitDoubleColon_joint (whole piece List.mem_cons_self)
      (closed piece List.mem_cons_self) (pieces.flatMap (· ++ [':', ':']) ++ last)
    rw [rest] at joint
    simpa using joint

theorem joinable_nil {last : List Char} (whole : ¬ [':', ':'] <:+: last) : Joinable [] last := by
  constructor
  · intro piece member
    rwa [List.mem_singleton.mp member]
  · intro piece member
    cases member

theorem Joinable.cons {piece last : List Char} {pieces : List (List Char)}
    (joinable : Joinable pieces last) (whole : ¬ [':', ':'] <:+: piece)
    (closed : piece.getLast? ≠ some ':') : Joinable (piece :: pieces) last := by
  constructor
  · intro other member
    rcases List.mem_cons.mp member with rfl | later
    · exact whole
    · exact joinable.whole other later
  · intro other member
    rcases List.mem_cons.mp member with rfl | later
    · exact closed
    · exact joinable.closed other later

/-- Cutting leaves no joint inside a piece, and none that starts with the last colon of a piece. -/
theorem joinable_of_splitDoubleColon {text last : List Char} {pieces : List (List Char)}
    (cut : splitDoubleColon text = pieces ++ [last]) : Joinable pieces last := by
  fun_induction splitDoubleColon text generalizing pieces last with
  | case1 =>
    cases pieces with
    | nil =>
      obtain rfl := (List.cons.inj cut).1
      exact joinable_nil (by simp)
    | cons piece pieces => simp at cut
  | case2 rest ih =>
    cases pieces with
    | nil => exact absurd (List.cons.inj cut).2 (splitDoubleColon_ne_nil rest)
    | cons piece pieces =>
      obtain ⟨rfl, later⟩ := List.cons.inj cut
      exact (ih later).cons (by simp) (by simp)
  | case3 c rest apart ih =>
    have joint : ¬ [':', ':'] <+: c :: rest := by
      intro begins
      obtain ⟨tail, same⟩ := begins
      obtain ⟨rfl, rfl⟩ := List.cons.inj same
      exact apart tail rfl rfl
    obtain ⟨first, more, split⟩ := List.exists_cons_of_ne_nil (splitDoubleColon_ne_nil rest)
    have joined := intercalate_splitDoubleColon rest
    rw [split] at cut ih joined
    cases pieces with
    | nil =>
      obtain ⟨rfl, rfl⟩ := List.cons.inj cut
      have inside := (ih rfl : Joinable [] first).whole first List.mem_cons_self
      rw [List.intercalate_singleton] at joined
      rw [← joined] at joint
      apply joinable_nil
      rw [List.infix_cons_iff, not_or]
      exact ⟨joint, inside⟩
    | cons piece pieces =>
      replace cut : (c :: first) :: more = piece :: (pieces ++ [last]) := cut
      obtain ⟨rfl, rfl⟩ := List.cons.inj cut
      have before : Joinable (first :: pieces) last := ih rfl
      obtain ⟨second, later, ends⟩ := List.exists_cons_of_ne_nil (List.concat_ne_nil last pieces)
      rw [ends, List.intercalate_cons_cons, List.append_assoc] at joined
      rw [← joined] at joint
      have behind : Joinable pieces last :=
        ⟨fun piece member => before.whole piece (List.mem_cons_of_mem _ member),
          fun piece member => before.closed piece (List.mem_cons_of_mem _ member)⟩
      apply behind.cons
      · rw [List.infix_cons_iff, not_or]
        refine ⟨?_, before.whole first List.mem_cons_self⟩
        intro begins
        exact joint (begins.trans (List.prefix_append (c :: first) _))
      · -- A lone colon would make a joint with the first colon of the joint behind it.
        cases first with
        | nil =>
          intro colon
          apply joint
          obtain rfl : c = ':' := Option.some.inj colon
          exact List.prefix_append [':', ':'] _
        | cons d first =>
          rw [List.getLast?_cons_cons]
          exact before.closed (d :: first) List.mem_cons_self

namespace Path

def steps (path : Path) : List Component := path.components.filter (· ≠ .current)

theorem filter_of_namesOf? {components : List Component} {names : List String}
    (found : namesOf? components = some names) :
    components.filter (· ≠ .current) = names.map .name := by
  induction components generalizing names with
  | nil =>
    cases found
    rfl
  | cons component components ih =>
    cases component with
    | name text =>
      rw [namesOf?, Option.map_eq_some_iff] at found
      obtain ⟨later, found, rfl⟩ := found
      rw [List.filter_cons_of_pos (by simp), ih found, List.map_cons]
    | current =>
      rw [List.filter_cons_of_neg (by simp)]
      exact ih found
    | root => cases found
    | parent => cases found

theorem properName_of_name_mem {path : Path} {name : String}
    (member : .name name ∈ path.components) : ProperName name := by
  have undivided := slash_notMem_of_name_mem member
  rw [components, List.mem_append, List.mem_filterMap] at member
  rcases member with ahead | ⟨part, _, amounts⟩
  · exact absurd ahead name_notMem_front
  · obtain rfl := Component.eq_ofList_of_ofPart? amounts
    refine ⟨?_, ?_, ?_, undivided⟩
    all_goals
      intro same
      rw [← String.toList_inj, String.toList_ofList] at same
      rw [same] at amounts
      cases amounts

end Path

namespace TraitKey

variable {path : Path} {key : TraitKey} {directories : List String} {name : String}

theorem exists_of_ofPath? (found : ofPath? path = some key) :
    ∃ directories name, key = ofSegments (directories ++ [name]) ∧
      path.steps = (directories ++ [fragmentFile name]).map .name ∧
      ∀ part ∈ directories ++ [fragmentFile name], ProperName part := by
  obtain ⟨names, listed, named⟩ := Option.bind_eq_some_iff.mp found
  rcases List.eq_nil_or_concat' names with rfl | ⟨directories, file, rfl⟩
  · cases named
  · rw [ofNames?_concat] at named
    split at named
    · cases named
    · obtain ⟨name, file, rfl⟩ := Option.map_eq_some_iff.mp named
      obtain ⟨-, rfl⟩ := traitName?_eq_some_iff.mp file
      refine ⟨directories, name, rfl, Path.filter_of_namesOf? listed, ?_⟩
      intro part member
      exact Path.properName_of_name_mem (Path.name_mem_of_namesOf? listed member)

theorem map_toList_segments (key : TraitKey) :
    key.segments.map String.toList = splitDoubleColon key.text.toList := by
  rw [segments, List.map_map]
  conv => rhs; rw [← List.map_id (splitDoubleColon key.text.toList)]
  apply List.map_congr_left
  intro piece _
  exact String.toList_ofList

/-- The segments of a key are those it was joined from exactly when they are cut where they were
joined. -/
theorem segments_ofSegments_iff :
    (ofSegments (directories ++ [name])).segments = directories ++ [name] ↔
      Joinable (directories.map String.toList) name.toList := by
  have texts : (directories ++ [name]).map String.toList =
      directories.map String.toList ++ [name.toList] := by
    rw [List.map_append, List.map_singleton]
  have joined : (ofSegments (directories ++ [name])).text.toList =
      (directories.map String.toList).flatMap (· ++ [':', ':']) ++ name.toList := by
    rw [toList_ofSegments, spread, List.flatMap_map]
  constructor
  · intro same
    have cut := map_toList_segments (ofSegments (directories ++ [name]))
    rw [same, texts] at cut
    exact joinable_of_splitDoubleColon cut.symm
  · intro joinable
    apply List.map_injective_iff.mpr fun _ _ => String.toList_injective
    rw [map_toList_segments, joined, joinable.splitDoubleColon_eq, texts]

theorem components_fragmentPath (segments : key.segments = directories ++ [name])
    (proper : ∀ part ∈ directories ++ [fragmentFile name], ProperName part) :
    key.fragmentPath.components = (directories ++ [fragmentFile name]).map .name := by
  rw [fragmentPath_eq segments]
  exact Path.components_below proper ⟨""⟩

theorem eq_of_map_name {others : List String} {other : String}
    (same : (directories ++ [fragmentFile name]).map Component.name =
      (others ++ [fragmentFile other]).map .name) : directories = others ∧ name = other := by
  have names := List.map_injective_iff.mpr (fun _ _ same => Component.name.inj same) same
  obtain ⟨rfl, files⟩ := List.append_inj' names rfl
  have file := congrArg String.toList (List.cons.inj files).1
  rw [toList_fragmentFile, toList_fragmentFile] at file
  have letters := List.append_cancel_right (List.append_cancel_left file)
  exact ⟨rfl, String.toList_inj.mp letters⟩

/-- A path that comes back shows the segments of its key. -/
theorem segments_of_components (found : ofPath? path = some key)
    (steps : path.steps = (directories ++ [fragmentFile name]).map .name)
    (back : key.fragmentPath.components = path.steps) : key.segments = directories ++ [name] := by
  have again : ofPath? key.fragmentPath = some key := by
    obtain ⟨names, listed, named⟩ := Option.bind_eq_some_iff.mp found
    have same : path.steps = names.map .name := Path.filter_of_namesOf? listed
    rw [ofPath?, back, same, Path.namesOf?_map_name, Option.bind_some, named]
  have undivided : ∀ segment ∈ key.segments, '/' ∉ segment.toList := by
    intro segment member inside
    apply slash_notMem_of_ofPath? again
    rw [← ofSegments_segments key]
    exact slash_mem_ofSegments_iff.mpr ⟨segment, member, inside⟩
  obtain ⟨before, last, segments⟩ :=
    (List.eq_nil_or_concat' key.segments).resolve_left key.segments_ne_nil
  obtain ⟨-, -, named⟩ := (own_path_of_undivided segments undivided).mp again
  rw [segments] at undivided
  have proper : ∀ part ∈ before ++ [fragmentFile last], ProperName part := by
    intro part member
    rcases List.mem_append.mp member with above | file
    · obtain ⟨nonempty, current, parent⟩ := named part above
      exact ⟨nonempty, current, parent, undivided part (List.mem_append_left _ above)⟩
    · rw [List.mem_singleton.mp file]
      exact .fragmentFile (undivided last (by simp))
  rw [components_fragmentPath segments proper, steps] at back
  obtain ⟨rfl, rfl⟩ := eq_of_map_name back
  exact segments

theorem components_fragmentPath_iff (found : ofPath? path = some key)
    (steps : path.steps = (directories ++ [fragmentFile name]).map .name) :
    key.fragmentPath.components = path.steps ↔
      Joinable (directories.map String.toList) name.toList := by
  obtain ⟨others, other, whole, alike, proper⟩ := exists_of_ofPath? found
  obtain ⟨rfl, rfl⟩ := eq_of_map_name (alike.symm.trans steps)
  rw [← segments_ofSegments_iff, ← whole]
  constructor
  · exact segments_of_components found steps
  · intro segments
    rw [components_fragmentPath segments proper, steps]

/-- The path of the key of a path has the components of that path, dots apart, exactly when no part
of it holds a double colon and no directory ends with a colon. Two paths of this kind with one key
have the same components, dots apart. -/
theorem recovered_iff (found : ofPath? path = some key) :
    ∃ directories name, path.steps = (directories ++ [fragmentFile name]).map .name ∧
      (key.fragmentPath.components = path.steps ↔
        Joinable (directories.map String.toList) name.toList) ∧
      (Joinable (directories.map String.toList) name.toList →
        ∀ other otherDirectories otherName, ofPath? other = some key →
          other.steps = (otherDirectories ++ [fragmentFile otherName]).map .name →
          Joinable (otherDirectories.map String.toList) otherName.toList →
          other.steps = path.steps) := by
  obtain ⟨directories, name, -, steps, -⟩ := exists_of_ofPath? found
  have back := components_fragmentPath_iff found steps
  refine ⟨directories, name, steps, back, ?_⟩
  intro joinable other otherDirectories otherName alike otherSteps otherJoinable
  have otherBack := (components_fragmentPath_iff alike otherSteps).mpr otherJoinable
  rw [← otherBack, back.mpr joinable]

theorem recovered_iff_dotted :
    ofPath? ⟨"./:core/fmt/trait.Debug:.js"⟩ = some ⟨":core::fmt::Debug:"⟩ ∧
    (mk ":core::fmt::Debug:").fragmentPath.components =
      (Path.mk "./:core/fmt/trait.Debug:.js").steps := by
  have found : ofPath? ⟨"./:core/fmt/trait.Debug:.js"⟩ = some ⟨":core::fmt::Debug:"⟩ := by
    decide +kernel
  have known : (Path.mk "./:core/fmt/trait.Debug:.js").steps =
      ([":core", "fmt"] ++ [fragmentFile "Debug:"]).map .name := by decide +kernel
  obtain ⟨directories, name, steps, back, -⟩ := recovered_iff found
  obtain ⟨rfl, rfl⟩ := eq_of_map_name (steps.symm.trans known)
  exact ⟨found, back.mpr ⟨by decide +kernel, by decide +kernel⟩⟩

example : ofPath? ⟨"a:/trait.b.js"⟩ = ofPath? ⟨"a/trait.:b.js"⟩ := by decide +kernel

end TraitKey

end ImplementorIndex
