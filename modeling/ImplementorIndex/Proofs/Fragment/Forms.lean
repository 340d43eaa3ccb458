import ImplementorIndex.Proofs.Fragment.RoundTrip
import ImplementorIndex.Proofs.Json.Containers
import Mathlib.Data.List.Forall2

/-!
# The two forms of a fragment

The same namespaces and lists may be written as the members of an object or as the assignments of a
script, in the same words. Both texts are read, and to the same payload: the lists are put one after
the other, so that a namespace that is repeated keeps its first place and its last list. How the
words are spelled does not matter, and neither does what the spaces between them are.
-/

namespace ImplementorIndex.Fragment

open Json (Readable Value)
open Text (Blank)

section Literals

theorem isBlank_of_isSpace {c : Char} (h : Json.isSpace c = true) : Text.isBlank c = true := by
  simp only [Json.isSpace, Bool.or_eq_true, decide_eq_true_eq] at h
  rcases h with ((rfl | rfl) | rfl) | rfl <;> decide

theorem blank_of_spaces {text : List Char} (h : ∀ c ∈ text, Json.isSpace c = true) : Blank text :=
  fun c member => isBlank_of_isSpace (h c member)

theorem trim_brackets {front back : List Char} (blankFront : Blank front) (blankBack : Blank back)
    (body : List Char) :
    Text.trim (front ++ '[' :: (body ++ ']' :: back)) = '[' :: body ++ [']'] := by
  have split : '[' :: (body ++ ']' :: back) = '[' :: body ++ [']'] ++ back := by simp
  rw [Text.trim, Text.trimStart_append blankFront, Text.trimStart_cons, if_neg (by decide), split,
    Text.trimEnd_append _ blankBack, Text.trimEnd_concat _ (by decide)]

/-- An array is a list literal, whatever its items are. -/
theorem readListLiteral_of_read (name : Namespace) {expression : List Char} {items : List Value}
    (h : Json.read expression = some (.array items)) :
    readListLiteral name expression = .ok (.array items) := by
  obtain ⟨words, cut, made⟩ := Option.bind_eq_some_iff.mp h
  obtain ⟨list, rfl, last⟩ := Json.exists_items made
  obtain ⟨front, behind, rfl, spacesFront, cutBehind⟩ := Json.exists_split_first rfl cut
  obtain ⟨inside, back, rfl, cutInside, none⟩ := Json.exists_split rfl cutBehind
  obtain ⟨gap, blankGap, trimmed⟩ := Text.exists_trimEnd inside
  rw [trimmed] at cutInside
  have body := Json.tokens_of_append_blank blankGap cutInside
  have comma : (Text.trimEnd inside).getLast? ≠ some ',' :=
    fun ends => last (Json.getLast?_tokens body ends)
  have words : Json.tokens ('[' :: Text.trimEnd inside ++ [']']) =
      some (.openArray :: list ++ [.closeArray]) := Json.tokens_between body rfl rfl
  have read : Json.read ('[' :: Text.trimEnd inside ++ [']']) = some (.array items) := by
    rw [Json.read, words, Option.bind_some, made]
  have outside := trim_brackets (blank_of_spaces spacesFront)
    (blank_of_spaces (Json.space_of_tokens_nil none)) inside
  simp only [readListLiteral, outside, stripBrackets?_brackets, comma, if_false, read]

end Literals

section Members

theorem cons_eq_ok_iff {α : Type} {first : α} {rest : Except Malformed (List α)} {all : List α} :
    (rest >>= fun later => pure (first :: later)) = .ok all ↔
      ∃ later, rest = .ok later ∧ all = first :: later := by
  cases rest with
  | error problem => simp [bind, Except.bind]
  | ok later => simp [bind, Except.bind, pure, Except.pure, eq_comm]

theorem entriesFrom_eq_ok_iff {name : Namespace} {position : Nat} {items : List Value}
    {entries : List Entry} :
    entriesFrom name position items = .ok entries ↔ items.map entryOf? = entries.map some := by
  induction items generalizing position entries with
  | nil => cases entries <;> simp [entriesFrom]
  | cons item items ih =>
    rw [entriesFrom, List.map_cons]
    cases entryOf? item with
    | none => cases entries <;> simp
    | some entry =>
      dsimp only
      rw [cons_eq_ok_iff]
      simp only [ih]
      constructor
      · rintro ⟨later, rest, rfl⟩
        rw [rest, List.map_cons]
      · intro same
        cases entries with
        | nil => simp at same
        | cons first later =>
          obtain ⟨head, rest⟩ := List.cons.inj same
          exact ⟨later, rest, by rw [Option.some.inj head]⟩

theorem entriesOf_eq_ok_iff {name : Namespace} {value : Value} {entries : List Entry} :
    entriesOf name value = .ok entries ↔
      ∃ items, value = .array items ∧ items.map entryOf? = entries.map some := by
  cases value with
  | array items => simp [entriesOf, entriesFrom_eq_ok_iff]
  | _ => simp [entriesOf]

/-- A member gives its name and the entries of its list. -/
def Gives (member : String × Value) (row : Namespace × List Entry) : Prop :=
  row.1 = ⟨member.1⟩ ∧ entriesOf row.1 member.2 = .ok row.2

theorem readMembers_eq_ok_iff {members : List (String × Value)}
    {rows : List (Namespace × List Entry)} :
    readMembers members = .ok rows ↔ List.Forall₂ Gives members rows := by
  induction members generalizing rows with
  | nil =>
    rw [List.forall₂_nil_left_iff, readMembers, Except.ok.injEq]
    exact eq_comm
  | cons member members ih =>
    obtain ⟨name, value⟩ := member
    rw [List.forall₂_cons_left_iff, readMembers]
    cases found : entriesOf ⟨name⟩ value with
    | error problem =>
      constructor
      · intro read
        simp [bind, Except.bind] at read
      · rintro ⟨⟨other, entries⟩, _, ⟨rfl, gives⟩, _⟩
        simp [found] at gives
    | ok entries =>
      change (readMembers members >>= fun later => pure ((⟨name⟩, entries) :: later)) = .ok rows ↔ _
      rw [cons_eq_ok_iff]
      constructor
      · rintro ⟨later, read, rfl⟩
        exact ⟨_, later, ⟨rfl, found⟩, ih.mp read, rfl⟩
      · rintro ⟨⟨other, given⟩, later, ⟨rfl, gives⟩, rest, rfl⟩
        obtain rfl := Except.ok.inj (found.symm.trans gives)
        exact ⟨later, ih.mpr rest, rfl⟩

/-- Members that are put one after the other give what their rows leave. -/
theorem forall₂_put {members : List (String × Value)} {rows : List (Namespace × List Entry)}
    {member : String × Value} {row : Namespace × List Entry} (h : List.Forall₂ Gives members rows)
    (gives : Gives member row) :
    List.Forall₂ Gives (Rows.put member.1 member.2 members) (Rows.put row.1 row.2 rows) := by
  induction h with
  | nil => exact .cons gives .nil
  | @cons old oldRow members rows first rest ih =>
    by_cases same : old.1 = member.1
    · have sameRow : oldRow.1 = row.1 := by rw [first.1, gives.1, same]
      rw [Rows.put, Rows.put, if_pos same, if_pos sameRow]
      exact .cons gives rest
    · have otherRow : oldRow.1 ≠ row.1 := by
        rw [first.1, gives.1]
        exact fun e => same (Namespace.mk.inj e)
      rw [Rows.put, Rows.put, if_neg same, if_neg otherRow]
      exact .cons first ih

theorem forall₂_ofList {members : List (String × Value)} {rows : List (Namespace × List Entry)}
    (h : List.Forall₂ Gives members rows) :
    List.Forall₂ Gives (Rows.ofList members) (Rows.ofList rows) := by
  have step : ∀ done doneRows, List.Forall₂ Gives done doneRows →
      List.Forall₂ Gives (members.foldl (fun rows row => Rows.put row.1 row.2 rows) done)
        (rows.foldl (fun rows row => Rows.put row.1 row.2 rows) doneRows) := by
    induction h with
    | nil => exact fun _ _ given => given
    | cons gives _ ih =>
      intro done doneRows given
      exact ih _ _ (forall₂_put given gives)
  exact step [] [] .nil

end Members

section Spellings

/-- An entry as it may be written: a string, or a record of strings and nulls with each name once. -/
inductive Flat : Value → Prop where
  | string (text : String) : Flat (.string text)
  | record {members : List (String × Value)} (distinct : (Rows.keys members).Nodup)
    (plain : ∀ member ∈ members, member.2 = .null ∨ ∃ text, member.2 = .string text) :
    Flat (.object members)

theorem Flat.readable {value : Value} (h : Flat value) : Readable 1 value := by
  cases h with
  | string text => exact Json.readable_string 1 text
  | record distinct plain =>
    apply Json.readable_object distinct
    intro member listed
    rcases plain member listed with null | ⟨text, string⟩
    · rw [null]
      exact Json.readable_null 0
    · rw [string]
      exact Json.readable_string 0 text

theorem flat_valueOf (entry : Entry) : Flat (valueOf entry) := by
  unfold valueOf
  split
  · exact .string entry.markup
  · rename_i label _
    apply Flat.record
    · show [markupName, labelName].Nodup
      decide
    · intro member listed
      simp only [List.mem_cons, List.not_mem_nil, or_false] at listed
      rcases listed with rfl | rfl
      · exact .inr ⟨_, rfl⟩
      · exact .inr ⟨_, rfl⟩

theorem tokens_writeString (text : String) :
    Json.tokens (Json.writeString text) = some [.string text] := by
  have cut := Json.spells_string text []
  rw [List.append_nil] at cut
  rw [cut, Json.tokens]
  rfl

/-- A namespace and its entries with a text for each: the words of the texts are those of the
namespace and of values that stand for the entries. -/
structure Spelling where
  name : Namespace
  entries : List Entry
  items : List Value
  key : List Char
  list : List Char
  flat : ∀ item ∈ items, Flat item
  stand : items.map entryOf? = entries.map some
  keyWords : Json.tokens key = some [.string name.text]
  listWords : Json.tokens list = Json.tokens (Value.array items).write

namespace Spelling

def row (spelling : Spelling) : Namespace × List Entry := (spelling.name, spelling.entries)

def member (spelling : Spelling) : String × Value := (spelling.name.text, .array spelling.items)

theorem readable_items (spelling : Spelling) : Readable 2 (.array spelling.items) :=
  Json.readable_array fun item listed => (spelling.flat item listed).readable

theorem read_list (spelling : Spelling) :
    Json.read spelling.list = some (.array spelling.items) := by
  rw [Json.read, spelling.listWords]
  exact spelling.readable_items.read (by decide)

def compact (row : Namespace × List Entry) : Spelling where
  name := row.1
  entries := row.2
  items := row.2.map valueOf
  key := Json.writeString row.1.text
  list := (Value.array (row.2.map valueOf)).write
  flat := by
    intro item listed
    obtain ⟨entry, _, rfl⟩ := List.mem_map.mp listed
    exact flat_valueOf entry
  stand := by
    rw [List.map_map]
    apply List.map_congr_left
    intro entry _
    exact entryOf?_valueOf entry
  keyWords := tokens_writeString row.1.text
  listWords := rfl

end Spelling

def jsonText (spellings : List Spelling) : List Char :=
  '\x7b' :: Json.joinCommas (spellings.map fun spelling => spelling.key ++ ':' :: spelling.list) ++
    ['\x7d']

def declaration : String := "var implementors = \x7b\x7d;\n"

def Spelling.line (spelling : Spelling) : List Char :=
  assignmentStart ++ (spelling.key ++ (']' :: ' ' :: '=' :: ' ' :: spelling.list)) ++ [';', '\n']

def scriptText (spellings : List Spelling) : List Char :=
  declaration.toList ++ spellings.flatMap Spelling.line

end Spellings

section Objects

theorem tokens_joinCommas {α : Type} (write spell : α → List Char) (pieces : List α)
    (h : ∀ piece ∈ pieces, ∃ list, Json.tokens (write piece) = some list ∧
      Json.tokens (spell piece) = some list) :
    ∃ list, Json.tokens (Json.joinCommas (pieces.map write)) = some list ∧
      Json.tokens (Json.joinCommas (pieces.map spell)) = some list := by
  induction pieces with
  | nil => exact ⟨[], by rw [List.map_nil, Json.joinCommas, Json.tokens], by
      rw [List.map_nil, Json.joinCommas, Json.tokens]⟩
  | cons piece pieces ih =>
    obtain ⟨first, written, spelled⟩ := h piece List.mem_cons_self
    cases pieces with
    | nil => exact ⟨first, written, spelled⟩
    | cons next pieces =>
      obtain ⟨rest, writtenRest, spelledRest⟩ :=
        ih fun piece listed => h piece (List.mem_cons_of_mem _ listed)
      have comma : Json.Token.comma.mark? = some ',' := rfl
      refine ⟨first ++ .comma :: rest, ?_, ?_⟩
      · have joined := Json.tokens_append_mark written comma
          (Json.joinCommas ((next :: pieces).map write))
        rw [writtenRest] at joined
        exact joined
      · have joined := Json.tokens_append_mark spelled comma
          (Json.joinCommas ((next :: pieces).map spell))
        rw [spelledRest] at joined
        exact joined

theorem writeMembers_eq_map (members : List (String × Value)) :
    Json.writeMembers members =
      members.map fun member => Json.writeString member.1 ++ ':' :: member.2.write := by
  induction members with
  | nil => rfl
  | cons member members ih => rw [Json.writeMembers, ih, List.map_cons]

theorem tokens_member (spelling : Spelling) :
    ∃ list, Json.tokens (Json.writeString spelling.member.1 ++ ':' :: spelling.member.2.write) =
        some list ∧
      Json.tokens (spelling.key ++ ':' :: spelling.list) = some list := by
  obtain ⟨words, cut, _⟩ := Option.bind_eq_some_iff.mp spelling.read_list
  have colon : Json.Token.colon.mark? = some ':' := rfl
  refine ⟨.string spelling.name.text :: .colon :: words, ?_, ?_⟩
  · have joined := Json.tokens_append_mark (tokens_writeString spelling.name.text) colon
      (Value.array spelling.items).write
    rw [← spelling.listWords, cut] at joined
    exact joined
  · have joined := Json.tokens_append_mark spelling.keyWords colon spelling.list
    rw [cut] at joined
    exact joined

/-- The members are read as they would be in their compact spelling. -/
theorem read_jsonText (spellings : List Spelling) :
    Json.read (jsonText spellings) = some (.object (Rows.ofList (spellings.map Spelling.member))) := by
  have same : ∃ list,
      Json.tokens (Json.joinCommas (Json.writeMembers (spellings.map Spelling.member))) = some list ∧
      Json.tokens (Json.joinCommas (spellings.map fun spelling =>
        spelling.key ++ ':' :: spelling.list)) = some list := by
    rw [writeMembers_eq_map, List.map_map]
    apply tokens_joinCommas
    intro spelling _
    exact tokens_member spelling
  obtain ⟨list, written, spelled⟩ := same
  have writtenWords : Json.tokens ('\x7b' :: Json.joinCommas (Json.writeMembers
      (spellings.map Spelling.member)) ++ ['\x7d']) = some (.openObject :: list ++ [.closeObject]) :=
    Json.tokens_between written rfl rfl
  have spelledWords : Json.tokens (jsonText spellings) =
      some (.openObject :: list ++ [.closeObject]) := Json.tokens_between spelled rfl rfl
  rw [Json.read, spelledWords, ← writtenWords]
  refine @Json.read_members _ 2 ?_ (by decide)
  intro member listed
  obtain ⟨spelling, _, rfl⟩ := List.mem_map.mp listed
  exact spelling.readable_items

theorem gives_row (spelling : Spelling) : Gives spelling.member spelling.row :=
  ⟨rfl, entriesOf_eq_ok_iff.mpr ⟨spelling.items, rfl, spelling.stand⟩⟩

theorem readJson_jsonText (spellings : List Spelling) :
    readJson (jsonText spellings) = .ok (Rows.ofList (spellings.map Spelling.row)) := by
  have gives : List.Forall₂ Gives (spellings.map Spelling.member) (spellings.map Spelling.row) := by
    rw [List.forall₂_map_left_iff, List.forall₂_map_right_iff, List.forall₂_same]
    exact fun spelling _ => gives_row spelling
  rw [readJson, read_jsonText]
  exact readMembers_eq_ok_iff.mpr (forall₂_ofList gives)

end Objects

section Scripts

theorem assigns_spelling (spelling : Spelling) :
    Assigns spelling.row (spelling.key ++ (']' :: ' ' :: '=' :: ' ' :: spelling.list)) := by
  obtain ⟨front, content, back, same, spacesFront, spacesBack, cut⟩ :=
    Json.exists_literal spelling.keyWords
  have key : Json.read (literalOf content) = some (.string spelling.name.text) := by
    rw [Json.read, literalOf, cut]
    rfl
  have list : Json.read (' ' :: spelling.list) = some (.array spelling.items) := by
    rw [Json.read, Json.tokens, if_pos (by decide)]
    exact spelling.read_list
  have assigns := @Assigns.intro front content back [' '] (' ' :: spelling.list) _ _ spelling.entries
    (blank_of_spaces spacesFront) (blank_of_spaces spacesBack) Text.blank_space key
    (readListLiteral_of_read _ list) (gives_row spelling).2
  rw [same]
  simpa [literalOf, Spelling.row] using assigns

theorem readAssignments_scriptLines (spellings : List Spelling) :
    readAssignments (spellings.flatMap Spelling.line) = .ok (spellings.map Spelling.row) := by
  induction spellings with
  | nil =>
    rw [List.flatMap_nil, ← readFrom_nil]
    rfl
  | cons spelling spellings ih =>
    have split : spelling.line ++ spellings.flatMap Spelling.line =
        assignmentStart ++ (spelling.key ++ (']' :: ' ' :: '=' :: ' ' :: spelling.list)) ++
          ';' :: '\n' :: spellings.flatMap Spelling.line := by
      simp [Spelling.line]
    rw [List.flatMap_cons, split, ← readFrom_nil,
      readFrom_assigns admits_nil (assigns_spelling spelling) (.inl rfl), readAssignments_newline, ih]
    rfl

theorem readAssignments_declaration (text : List Char) :
    readAssignments (declaration.toList ++ text) = readAssignments text := by
  have passed : nextAssignment (.code none) (declaration.toList ++ text) =
      nextAssignment (.code (some '\n')) text := by
    simp [declaration, nextAssignment, assignmentStart, tableName, Text.stripWord?]
  rw [← readFrom_nil, ← readFrom_restart (.inl admits_newline), readFrom, List.getLast?_nil, passed]
  rfl

theorem readLists_scriptText (spellings : List Spelling) :
    readLists (scriptText spellings) = .ok (spellings.map Spelling.row) := by
  have named : tableName <:+: scriptText spellings := by
    have first : tableName <:+: declaration.toList := by decide +kernel
    exact first.trans (List.prefix_append _ _).isInfix
  have plain : stripMark (scriptText spellings) = scriptText spellings ∧
      isJsonForm (scriptText spellings) = false := by
    have first : declaration.toList.head? = some 'v' := by decide +kernel
    obtain ⟨tail, starts⟩ := List.head?_eq_some_iff.mp first
    rw [scriptText, starts, List.cons_append]
    exact ⟨by simp [stripMark, byteOrderMark], by simp [isJsonForm, Text.trimStart_cons,
      show Text.isBlank 'v' = false by decide]⟩
  rw [readLists, plain.1, plain.2]
  simp only [Bool.false_eq_true, if_false, readScript, Text.containsWord_iff.mpr named, if_true]
  rw [scriptText, readAssignments_declaration, readAssignments_scriptLines]

end Scripts

section Results

theorem readLists_jsonText (spellings : List Spelling) :
    readLists (jsonText spellings) = .ok (Rows.ofList (spellings.map Spelling.row)) := by
  have plain : stripMark (jsonText spellings) = jsonText spellings ∧
      isJsonForm (jsonText spellings) = true := by
    refine ⟨?_, ?_⟩
    · rw [jsonText, List.cons_append, stripMark, if_neg (by decide)]
    · simp [jsonText, isJsonForm, Text.trimStart_cons, show Text.isBlank '\x7b' = false by decide]
  rw [readLists, plain.1, plain.2, if_pos rfl, readJson_jsonText]

/-- Namespaces and lists, spelled in whatever way, are read to the same payload from either form: the
one that the lists leave when they are put one after the other. Every list of namespaces with their
entries can be spelled. -/
theorem forms_agree (key : TraitKey) :
    (∀ rows : List (Namespace × List Entry), ∃ spellings : List Spelling,
      spellings.map Spelling.row = rows) ∧
    ∀ spellings : List Spelling, ∃ payload : Payload,
      decode key (String.ofList (jsonText spellings)) = .ok payload ∧
      decode key (String.ofList (scriptText spellings)) = .ok payload ∧
      payload = (spellings.map Spelling.row).foldl
        (fun payload row => payload.withGroup row.1 row.2) ⟨key, .empty⟩ ∧
      payload.groups.names = (spellings.map Spelling.name).eraseDups ∧
      ∀ name, payload.groups.get? name = Rows.find? name (spellings.map Spelling.row).reverse := by
  constructor
  · intro rows
    refine ⟨rows.map Spelling.compact, ?_⟩
    rw [List.map_map]
    exact List.map_id rows
  · intro spellings
    refine ⟨Payload.ofGroups key (spellings.map Spelling.row), ?_, ?_, ?_, ?_, ?_⟩
    · -- The members were put one after the other already, and putting them again changes nothing.
      rw [decode, String.toList_ofList, readLists_jsonText, ← Groups.rows_ofList]
      change Except.ok (Payload.mk key (Groups.ofList _)) = _
      rw [Groups.ofList_rows]
      rfl
    · rw [decode, String.toList_ofList, readLists_scriptText]
      rfl
    · exact (foldl_withGroup key .empty _).symm
    · rw [Payload.ofGroups, Groups.names, Groups.rows_ofList, Rows.keys_ofList, Rows.keys,
        List.map_map]
      rfl
    · intro name
      rw [Payload.ofGroups, Groups.get?, Groups.rows_ofList, Rows.find?_ofList]

end Results

end ImplementorIndex.Fragment
