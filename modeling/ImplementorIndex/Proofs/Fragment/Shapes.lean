import ImplementorIndex.Proofs.Fragment.Forms

/-!
# Shapes of the values in a fragment

A fragment is read only if the values in it are lists of snippets. In a script every assignment
counts, also one whose namespace is assigned again later. In an object only the last member of each
name counts: a value of any other shape may stand before it under the same name, and the fragment is
read all the same.
-/

namespace ImplementorIndex.Fragment

open Json (Value)
open Text (Blank)

section Snippets

/-- A snippet is a string, or a record with a string for its markup and a string, null or nothing for
its label. -/
inductive Snippet : Value → Prop where
  | markup (text : String) : Snippet (.string text)
  | record {members : List (String × Value)} {text : String}
    (marked : Rows.find? markupName members = some (.string text))
    (labelled : Rows.find? labelName members = none ∨ Rows.find? labelName members = some .null ∨
      ∃ label, Rows.find? labelName members = some (.string label)) : Snippet (.object members)

def SnippetList (value : Value) : Prop := ∃ items, value = .array items ∧ ∀ item ∈ items, Snippet item

theorem snippet_iff {value : Value} : Snippet value ↔ ∃ entry, entryOf? value = some entry := by
  constructor
  · intro snippet
    cases snippet with
    | markup text => exact ⟨_, rfl⟩
    | record marked labelled =>
      rcases labelled with none | null | ⟨label, string⟩
      · simp [entryOf?, marked, none]
      · simp [entryOf?, marked, null]
      · simp [entryOf?, marked, string]
  · rintro ⟨entry, found⟩
    unfold entryOf? at found
    split at found
    · exact .markup _
    · split at found
      · rename_i marked
        apply Snippet.record marked
        split at found
        · rename_i none
          exact .inl none
        · rename_i null
          exact .inr (.inl null)
        · rename_i label string
          exact .inr (.inr ⟨label, string⟩)
        · simp at found
      · simp at found
    · simp at found

theorem exists_entries_iff {items : List Value} :
    (∃ entries : List Entry, items.map entryOf? = entries.map some) ↔ ∀ item ∈ items, Snippet item := by
  constructor
  · rintro ⟨entries, same⟩ item listed
    have mapped : entryOf? item ∈ entries.map some := same ▸ List.mem_map_of_mem listed
    obtain ⟨entry, _, found⟩ := List.mem_map.mp mapped
    exact snippet_iff.mpr ⟨entry, found.symm⟩
  · intro snippets
    induction items with
    | nil => exact ⟨[], rfl⟩
    | cons item items ih =>
      obtain ⟨entry, found⟩ := snippet_iff.mp (snippets item List.mem_cons_self)
      obtain ⟨entries, same⟩ := ih fun other listed => snippets other (List.mem_cons_of_mem _ listed)
      exact ⟨entry :: entries, by rw [List.map_cons, List.map_cons, found, same]⟩

theorem snippetList_iff {value : Value} (name : Namespace) :
    SnippetList value ↔ ∃ entries, entriesOf name value = .ok entries := by
  simp only [SnippetList, entriesOf_eq_ok_iff, ← exists_entries_iff]
  constructor
  · rintro ⟨items, same, entries, stand⟩
    exact ⟨entries, items, same, stand⟩
  · rintro ⟨entries, items, same, stand⟩
    exact ⟨items, same, entries, stand⟩

theorem exists_readMembers_iff {members : List (String × Value)} :
    (∃ rows, readMembers members = .ok rows) ↔ ∀ member ∈ members, SnippetList member.2 := by
  simp only [readMembers_eq_ok_iff]
  induction members with
  | nil => simp
  | cons member members ih =>
    rw [List.forall_mem_cons, ← ih, snippetList_iff ⟨member.1⟩]
    constructor
    · rintro ⟨rows, gives⟩
      obtain ⟨row, later, ⟨named, found⟩, rest, rfl⟩ := List.forall₂_cons_left_iff.mp gives
      rw [named] at found
      exact ⟨⟨row.2, found⟩, later, rest⟩
    · rintro ⟨⟨entries, found⟩, rows, rest⟩
      exact ⟨(⟨member.1⟩, entries) :: rows, .cons ⟨rfl, found⟩ rest⟩

end Snippets

section Objects

theorem isJsonForm_of_tokens {text : List Char} {list : List Json.Token}
    (cut : Json.tokens text = some (.openObject :: list)) : isJsonForm text = true := by
  obtain ⟨before, after, rfl, spaces, _⟩ := Json.exists_split_first rfl cut
  rw [isJsonForm, Text.trimStart_append (blank_of_spaces spaces), Text.trimStart_cons]
  simp [show Text.isBlank '\x7b' = false by decide]

/-- Blank characters in front of a text with tokens are spaces, so the brace is its first token. -/
theorem exists_openObject {text : List Char} {words : List Json.Token} (form : isJsonForm text = true)
    (cut : Json.tokens text = some words) : ∃ list, words = .openObject :: list := by
  fun_induction Json.tokens text generalizing words with
  | case1 => simp [isJsonForm] at form
  | case2 c rest space ih =>
    rw [isJsonForm, Text.trimStart_cons, if_pos (isBlank_of_isSpace space)] at form
    exact ih form cut
  | case3 => simp at cut
  | case4 c text visible token rest first ih =>
    obtain ⟨list, _, rfl⟩ := Option.map_eq_some_iff.mp cut
    rw [isJsonForm, Text.trimStart_cons, Json.isBlank_of_readToken first] at form
    obtain rfl : c = '\x7b' := by simpa using form
    obtain ⟨rfl, _⟩ := Prod.mk.inj (Option.some.inj first)
    exact ⟨list, rfl⟩

theorem exists_writtenObject_of_form {text : List Char} (form : isJsonForm text = true)
    (h : (Json.read text).isSome = true) : ∃ members, Json.WrittenObject members text := by
  obtain ⟨value, read⟩ := Option.isSome_iff_exists.mp h
  obtain ⟨words, cut, _⟩ := Option.bind_eq_some_iff.mp read
  obtain ⟨list, rfl⟩ := exists_openObject form cut
  exact Json.exists_writtenObject cut read

theorem isJsonForm_of_written {text : List Char} {members : List (String × Value)}
    (h : Json.WrittenObject members text) : isJsonForm text = true := by
  cases h with
  | empty words => exact isJsonForm_of_tokens words
  | members words _ => exact isJsonForm_of_tokens words

theorem exists_readJson_iff {text : List Char} {members : List (String × Value)}
    (written : Json.WrittenObject members text) :
    (∃ rows, readJson text = .ok rows) ↔ (Json.read text).isSome = true ∧
      ∀ name value, Rows.find? name members.reverse = some value → SnippetList value := by
  cases read : Json.read text with
  | none => simp [readJson, read]
  | some value =>
    obtain rfl := written.eq_ofList read
    -- The members that are left are the last of each name.
    have kept : ∀ name value, (name, value) ∈ Rows.ofList members ↔
        Rows.find? name members.reverse = some value := by
      intro name value
      rw [← Rows.find?_ofList, Rows.find?_eq_some_iff (Rows.nodup_keys_ofList members)]
    simp only [readJson, read, exists_readMembers_iff, Option.isSome_some, true_and, ← kept]
    exact Prod.forall

theorem exists_decode_iff (key : TraitKey) (text : String) :
    (∃ payload, decode key text = .ok payload) ↔ ∃ rows, readLists text.toList = .ok rows := by
  rw [decode]
  cases readLists text.toList with
  | error problem => simp [Except.map]
  | ok rows => simp [Except.map]

end Objects

section Statements

/-- Strings and brackets that are opened in a text are closed in it, and no semicolon stands in the
open. -/
def Whole (text : List Char) : Prop := (Nesting.outside 0).run text = some (.outside 0)

theorem ends_bracket (text : List Char) : Ends (']' :: text) (']' :: text) :=
  .inr ⟨rfl, .inr ⟨']', text, rfl, rfl⟩⟩

theorem Whole.unique {text other after behind rest left : List Char} (whole : Whole text)
    (alike : Whole other) (ends : Ends after rest) (stops : Ends behind left)
    (same : text ++ after = other ++ behind) : text = other ∧ after = behind ∧ rest = left := by
  have split := splitExpression_of_run whole ends
  rw [same, splitExpression_of_run alike stops] at split
  obtain ⟨rfl, rfl⟩ := Prod.mk.inj (Option.some.inj split)
  exact ⟨rfl, List.append_cancel_left same, rfl⟩

/-- What stands behind the start of an assignment, whatever its key and its value are. -/
inductive Gets (expression : List Char) : List Char → Prop where
  | intro {key back : List Char} (wholeKey : Whole key) (blankBack : Blank back)
    (whole : Whole expression) : Gets expression (key ++ ']' :: (back ++ '=' :: expression))

/-- A text behind another one has an assignment of this expression at the level of statements: there
is nothing but filler and other assignments before it. -/
inductive Occurs (expression : List Char) : List Char → List Char → Prop where
  | here {before body after rest : List Char} (admits : Admits before) (gets : Gets expression body)
    (ends : Ends after rest) : Occurs expression before (assignmentStart ++ body ++ after)
  | filler {before piece after : List Char} (passed : Filler before piece after)
    (later : Occurs expression (before ++ piece) after) : Occurs expression before (piece ++ after)
  | assigned {before body after other : List Char} (admits : Admits before) (gets : Gets other body)
    (later : Occurs expression (before ++ (assignmentStart ++ body ++ [';'])) after) :
    Occurs expression before (assignmentStart ++ body ++ ';' :: after)
  | enclosed {before body after other : List Char} (admits : Admits before) (gets : Gets other body)
    (ends : after = [] ∨ ∃ c tail, after = c :: tail ∧ isClosing c = true)
    (later : Occurs expression (before ++ (assignmentStart ++ body)) after) :
    Occurs expression before (assignmentStart ++ body ++ after)

/-- An expression that is a list of snippets, perhaps with a comma behind the last one. -/
inductive WrittenList : List Char → Prop where
  | intro {front body comma gap back : List Char} {value : Value} (blankFront : Blank front)
    (blankGap : Blank gap) (blankBack : Blank back) (trailing : comma = [] ∨ comma = [','])
    (read : Json.read ('[' :: body ++ [']']) = some value) (list : SnippetList value) :
    WrittenList (front ++ ('[' :: (body ++ comma ++ gap) ++ [']'] ++ back))

theorem whole_literal {front content middle : List Char} {value : Value} (blankFront : Blank front)
    (blankMiddle : Blank middle) (read : Json.read (literalOf content) = some value) :
    Whole (front ++ (literalOf content ++ middle)) := by
  have literal := Nesting.run_literal (Json.guarded_of_read read) 0
  rw [Whole, Nesting.run_append, Nesting.run_blank blankFront, Option.bind_some, Nesting.run_append,
    literalOf, literal, Option.bind_some, Nesting.run_blank blankMiddle]

theorem eq_of_blank_mark {mark : Char} {front other text rest : List Char}
    (visible : Text.isBlank mark = false) (blank : Blank front) (alike : Blank other)
    (same : front ++ mark :: text = other ++ mark :: rest) : text = rest := by
  have trimmed := congrArg Text.trimStart same
  rw [Text.trimStart_append blank, Text.trimStart_append alike, Text.trimStart_cons,
    Text.trimStart_cons, if_neg (Bool.eq_false_iff.mp visible),
    if_neg (Bool.eq_false_iff.mp visible)] at trimmed
  exact (List.cons.inj trimmed).2

/-- An assignment that is read has a list of snippets for its value, and its end is found. -/
theorem writtenList_of_readAssignment {expression body after rest left : List Char}
    {row : Namespace × List Entry} (gets : Gets expression body) (ends : Ends after rest)
    (h : readAssignment (body ++ after) = .ok (row, left)) :
    WrittenList expression ∧ left = rest := by
  obtain ⟨found, behind, same, assigns, stops⟩ := assigns_of_readAssignment h
  obtain ⟨wholeKey, blankBack, whole⟩ := gets
  cases assigns with
  | @intro front content middle gap list name value entries blankFront blankMiddle blankGap key read
      items =>
    -- The key ends before the first bracket that closes nothing, and that bracket is the same in both.
    simp only [List.append_assoc, List.cons_append] at same
    rw [← List.append_assoc (literalOf content), ← List.append_assoc front] at same
    obtain ⟨_, equal, _⟩ := wholeKey.unique (whole_literal blankFront blankMiddle key)
      (ends_bracket _) (ends_bracket _) same
    have value := eq_of_blank_mark (by decide) blankBack blankGap (List.cons.inj equal).2
    obtain ⟨rfl, _, rfl⟩ := whole.unique (run_of_readListLiteral read) ends stops value
    obtain ⟨front, body, comma, gap, back, blankFront, blankGap, blankBack, trailing, rfl, found⟩ :=
      exists_body_of_readListLiteral read
    exact ⟨.intro blankFront blankGap blankBack trailing found
      ((snippetList_iff ⟨name⟩).mpr ⟨entries, items⟩), rfl⟩

theorem writtenList_of_readFrom {expression before body after rest : List Char}
    {rows : List (Namespace × List Entry)} (admits : Admits before) (gets : Gets expression body)
    (ends : Ends after rest) (h : readFrom before (assignmentStart ++ body ++ after) = .ok rows) :
    WrittenList expression ∧ ∃ later, readAssignments rest = .ok later := by
  rw [readFrom, List.append_assoc, nextAssignment_start admits] at h
  dsimp only at h
  split at h
  · simp at h
  · rename_i row left read
    obtain ⟨list, rfl⟩ := writtenList_of_readAssignment gets ends read
    cases later : readAssignments left with
    | error problem => simp [later, Except.map] at h
    | ok found => exact ⟨list, found, rfl⟩

/-- Wherever an assignment occurs in a script that is read, its value is a list of snippets. -/
theorem writtenList_of_occurs {expression before text : List Char}
    {rows : List (Namespace × List Entry)} (occurs : Occurs expression before text)
    (h : readFrom before text = .ok rows) : WrittenList expression := by
  induction occurs generalizing rows with
  | here admits gets ends => exact (writtenList_of_readFrom admits gets ends h).1
  | filler passed _ ih =>
    rw [readFrom_filler passed] at h
    exact ih h
  | @assigned before body after other admits gets _ ih =>
    obtain ⟨_, later, read⟩ := writtenList_of_readFrom admits gets (.inl rfl) h
    have semicolon := admits_semicolon (before ++ (assignmentStart ++ body))
    rw [List.append_assoc] at semicolon
    rw [← readFrom_restart (.inl semicolon)] at read
    exact ih read
  | enclosed admits gets ends _ ih =>
    obtain ⟨_, later, read⟩ := writtenList_of_readFrom admits gets (.inr ⟨rfl, ends⟩) h
    rw [← readFrom_restart (.inr (not_start_of_ends ends))] at read
    exact ih read

end Statements

section Results

/-- What is read has the right shapes. An object is read exactly when the last value under each name
is a list of snippets, so every value is one where no name is repeated. A script is read only if the
value of every assignment at the level of statements is one, whatever is repeated. -/
theorem shapes_of_decode (key : TraitKey) (text : String) :
    (isJsonForm (stripMark text.toList) = true → (Json.read (stripMark text.toList)).isSome = true →
      ∃ members, Json.WrittenObject members (stripMark text.toList)) ∧
    (∀ members, Json.WrittenObject members (stripMark text.toList) →
      ((∃ payload, decode key text = .ok payload) ↔
        (Json.read (stripMark text.toList)).isSome = true ∧
        ∀ name value, Rows.find? name members.reverse = some value → SnippetList value) ∧
      ((Rows.keys members).Nodup → (∃ payload, decode key text = .ok payload) →
        ∀ member ∈ members, SnippetList member.2)) ∧
    (isJsonForm (stripMark text.toList) = false → (∃ payload, decode key text = .ok payload) →
      ∀ expression, Occurs expression [] (stripMark text.toList) → WrittenList expression) := by
  refine ⟨exists_writtenObject_of_form, ?_, ?_⟩
  · intro members written
    have lasts : (∃ payload, decode key text = .ok payload) ↔
        (Json.read (stripMark text.toList)).isSome = true ∧
        ∀ name value, Rows.find? name members.reverse = some value → SnippetList value := by
      rw [exists_decode_iff, readLists, isJsonForm_of_written written, if_pos rfl,
        exists_readJson_iff written]
    refine ⟨lasts, ?_⟩
    intro distinct read member listed
    apply (lasts.mp read).2 member.1
    rw [Rows.find?_reverse distinct]
    exact (Rows.find?_eq_some_iff distinct).mpr listed
  · intro form read expression occurs
    rw [exists_decode_iff, readLists, form, if_neg (by decide), readScript] at read
    obtain ⟨rows, read⟩ := read
    split at read
    · rw [← readFrom_nil] at read
      exact writtenList_of_occurs occurs read
    · simp at read

theorem shapes_of_decode_distinct_and_script :
    (∀ member ∈ [("a", Value.array [.string "x"]), ("b", .array [])], SnippetList member.2) ∧
    WrittenList ['[', '"', 'x', '"', ',', ']'] := by
  constructor
  · have written : Json.WrittenObject [("a", .array [.string "x"]), ("b", .array [])]
        (stripMark "\x7b\"a\":[\"x\"],\"b\":[]\x7d".toList) := by
      refine @Json.WrittenObject.members _ [.string "a", .colon, .openArray, .string "x", .closeArray,
        .comma, .string "b", .colon, .openArray, .closeArray] _ (by decide +kernel) ?_
      exact @Json.Members.more "a" _ [.openArray, .string "x", .closeArray] _ _ rfl (.last rfl)
    have read : decode ⟨"T"⟩ "\x7b\"a\":[\"x\"],\"b\":[]\x7d" =
        .ok (Payload.ofGroups ⟨"T"⟩ [(⟨"a"⟩, [⟨"x", none⟩]), (⟨"b"⟩, [])]) := by decide +kernel
    exact ((shapes_of_decode ⟨"T"⟩ _).2.1 _ written).2 (by decide) ⟨_, read⟩
  · have read : decode ⟨"T"⟩ "implementors[\"a\"]=[\"x\",];" =
        .ok (Payload.ofGroups ⟨"T"⟩ [(⟨"a"⟩, [⟨"x", none⟩])]) := by decide +kernel
    have letters : stripMark "implementors[\"a\"]=[\"x\",];".toList = assignmentStart ++
        (['"', 'a', '"'] ++ ']' :: ([] ++ '=' :: ['[', '"', 'x', '"', ',', ']'])) ++ [';'] := by
      decide +kernel
    apply (shapes_of_decode ⟨"T"⟩ "implementors[\"a\"]=[\"x\",];").2.2 (by decide +kernel) ⟨_, read⟩
    rw [letters]
    exact .here admits_nil (.intro rfl Text.blank_nil rfl) (.inl rfl)

/-- A value that is no list hides behind a later member of the same name. -/
theorem decode_of_hidden_member :
    isJsonForm (stripMark "\x7b\"a\":null,\"a\":[\"x\"]\x7d".toList) = true ∧
    Json.WrittenObject [("a", .null), ("a", .array [.string "x"])]
      (stripMark "\x7b\"a\":null,\"a\":[\"x\"]\x7d".toList) ∧
    decode ⟨"T"⟩ "\x7b\"a\":null,\"a\":[\"x\"]\x7d" =
      .ok (Payload.ofGroups ⟨"T"⟩ [(⟨"a"⟩, [⟨"x", none⟩])]) ∧
    ¬ ∀ member ∈ [("a", Value.null), ("a", .array [.string "x"])], SnippetList member.2 := by
  refine ⟨by decide +kernel, ?_, by decide +kernel, ?_⟩
  · refine @Json.WrittenObject.members _ [.string "a", .colon, .null, .comma, .string "a", .colon,
      .openArray, .string "x", .closeArray] _ (by decide +kernel) ?_
    exact @Json.Members.more "a" _ [.null] _ _ rfl (.last rfl)
  · intro all
    obtain ⟨items, same, _⟩ := all ("a", .null) List.mem_cons_self
    simp at same

end Results

end ImplementorIndex.Fragment
