import ImplementorIndex.Proofs.Fragment.Forms

/-!
# Names that end with the name of the table

Behind a script that ends with an assignment, a line may assign to something else whose name ends with
that of the table: a longer name, or a member of another object. The character before the name of the
table tells the two apart. The main statement says what such a line adds, whatever the character is:
nothing behind a letter or a digit of ASCII, an underscore, a dollar sign or a dot, and otherwise the
list that it writes. So a name that only a letter beyond ASCII makes longer is taken for the table.
-/

namespace ImplementorIndex.Fragment

open Text (Blank Guarded)

/-- The search for an assignment leads through the text, whatever stands around it. -/
def Passes (text : List Char) : Prop :=
  ∀ before after, nextAssignment (.code before.getLast?) (text ++ after) =
    nextAssignment (.code (before ++ text).getLast?) after

theorem passes_nil : Passes [] := by
  intro before after
  rw [List.nil_append, List.append_nil]

theorem Passes.append {text more : List Char} (h : Passes text) (h' : Passes more) :
    Passes (text ++ more) := by
  intro before after
  rw [List.append_assoc, h, h', List.append_assoc]

theorem Passes.readFrom_eq {text : List Char} (h : Passes text) (before after : List Char) :
    readFrom before (text ++ after) = readFrom (before ++ text) after := by
  rw [readFrom, readFrom, h]

def startsPiece (c : Char) : Bool := c = '"' || c = '\x27' || c = '/' || c = 'i'

theorem passes_character {c : Char} (h : startsPiece c = false) : Passes [c] := by
  intro before after
  simp only [startsPiece, Bool.or_eq_false_iff, decide_eq_false_iff_not] at h
  obtain ⟨⟨⟨double, single⟩, slash⟩, letter⟩ := h
  apply nextAssignment_filler
  refine .character double single ?_ ?_
  · intro mark listed begins
    simp only [commentMarks, List.mem_cons, List.not_mem_nil, or_false] at listed
    rcases listed with rfl | rfl
    · exact slash (List.cons_prefix_cons.mp begins).1.symm
    · exact slash (List.cons_prefix_cons.mp begins).1.symm
  · intro start
    exact letter (List.cons_prefix_cons.mp start.1).1.symm

theorem passes_plain {text : List Char} (h : text.all (fun c => !startsPiece c) = true) :
    Passes text := by
  induction text with
  | nil => exact passes_nil
  | cons c text ih =>
    rw [List.all_cons, Bool.and_eq_true, Bool.not_eq_true'] at h
    exact (passes_character h.1).append (ih h.2)

/-- Characters of a class are passed if no piece starts at one of the class. -/
theorem passes_class {text : List Char} {holds : Char → Bool} (h : ∀ c ∈ text, holds c = true)
    (double : holds '"' = false) (single : holds '\x27' = false) (slash : holds '/' = false)
    (letter : holds 'i' = false) : Passes text := by
  apply passes_plain
  rw [List.all_eq_true]
  intro c member
  have held := h c member
  rw [Bool.not_eq_true', Bool.eq_false_iff]
  intro starts
  simp only [startsPiece, Bool.or_eq_true, decide_eq_true_eq] at starts
  rcases starts with ((rfl | rfl) | rfl) | rfl
  · simp [double] at held
  · simp [single] at held
  · simp [slash] at held
  · simp [letter] at held

theorem passes_literal {content : List Char} (h : Guarded '"' content) :
    Passes ('"' :: content ++ ['"']) := by
  intro before after
  exact nextAssignment_filler (.string (.inl rfl) h)

theorem passes_spaces {spaces : List Char} (h : Json.Spaces spaces) : Passes spaces :=
  passes_class h rfl rfl rfl rfl

theorem passes_enclosed {opening closing : Char} {body : List Char} (first : startsPiece opening = false)
    (last : startsPiece closing = false) (h : Passes body) : Passes (opening :: body ++ [closing]) :=
  ((passes_character first).append h).append (passes_character last)

/-- By induction on the grammar: no assignment starts in a JSON text. -/
theorem passes_of_written {form : Json.Form} {text : List Char} (h : Json.Written form text) :
    Passes text := by
  induction h with
  | word known =>
    have all : ∀ word ∈ Json.words, word.all (fun c => !startsPiece c) = true := by decide
    exact passes_plain (all _ known)
  | number h => exact passes_class h.chars rfl rfl rfl rfl
  | string h => exact passes_literal h.guarded
  | emptyArray h => exact passes_enclosed rfl rfl (passes_spaces h)
  | array _ ih => exact passes_enclosed rfl rfl ih
  | emptyObject h => exact passes_enclosed rfl rfl (passes_spaces h)
  | object _ ih => exact passes_enclosed rfl rfl ih
  | element h _ h' ih => exact (passes_spaces h).append (ih.append (passes_spaces h'))
  | member h content h' _ ih =>
    have colon : Passes [':'] := passes_character rfl
    have value := (passes_spaces h').append (colon.append ih)
    exact (passes_spaces h).append ((passes_literal content.guarded).append value)
  | last _ ih => exact ih
  | more _ _ ih ih' =>
    have comma : Passes [','] := passes_character rfl
    exact ih.append (comma.append ih')

/-- A text behind another one is a script whose last piece is an assignment with its semicolon. -/
inductive EndsAssigned : List Char → List Char → Prop where
  | last {before body : List Char} {row : Namespace × List Entry} (admits : Admits before)
    (assigns : Assigns row body) : EndsAssigned before (assignmentStart ++ body ++ [';'])
  | filler {before piece after : List Char} (passed : Filler before piece after)
    (rest : EndsAssigned (before ++ piece) after) : EndsAssigned before (piece ++ after)
  | assigned {before body after : List Char} {row : Namespace × List Entry} (admits : Admits before)
    (assigns : Assigns row body)
    (rest : EndsAssigned (before ++ (assignmentStart ++ body ++ [';'])) after) :
    EndsAssigned before (assignmentStart ++ body ++ ';' :: after)
  | enclosed {before body tail : List Char} {c : Char} {row : Namespace × List Entry}
    (admits : Admits before) (assigns : Assigns row body) (closing : isClosing c = true)
    (rest : EndsAssigned (before ++ (assignmentStart ++ body)) (c :: tail)) :
    EndsAssigned before (assignmentStart ++ body ++ c :: tail)

section Endings

variable {before piece text after : List Char}

theorem EndsAssigned.infix (h : EndsAssigned before text) : assignmentStart <:+: text := by
  induction h with
  | @last _ body _ _ _ => exact ⟨[], body ++ [';'], by simp⟩
  | @filler _ piece after _ _ ih => exact ih.trans (List.suffix_append piece after).isInfix
  | @assigned _ body after _ _ _ _ _ => exact ⟨[], body ++ ';' :: after, by simp⟩
  | @enclosed _ body tail c _ _ _ _ _ _ => exact ⟨[], body ++ c :: tail, by simp⟩

theorem EndsAssigned.getLast? (h : EndsAssigned before text) : text.getLast? = some ';' := by
  induction h with
  | last => rw [List.getLast?_concat]
  | filler _ _ ih => rw [List.getLast?_append, ih, Option.some_or]
  | assigned _ _ _ ih => rw [List.getLast?_append, List.getLast?_cons, ih]; rfl
  | enclosed _ _ _ _ ih => rw [List.getLast?_append, ih, Option.some_or]

theorem prefix_of_prefix_append {word more : List Char} (long : word.length ≤ text.length)
    (h : word <+: text ++ more) : word <+: text :=
  List.prefix_of_prefix_length_le h (List.prefix_append text more) long

/-- What stands behind a piece of filler may go on, if it is long enough to show what starts there. -/
theorem Filler.append (h : Filler before piece after) (long : assignmentStart.length ≤ after.length)
    (more : List Char) : Filler before piece (after ++ more) := by
  have size : assignmentStart.length = 13 := by decide
  cases h with
  | lineComment line ends =>
    apply Filler.lineComment line
    rcases ends with rfl | newline
    · rw [size] at long
      simp at long
    · rw [List.head?_append, newline]
      exact .inr rfl
  | blockComment first => exact .blockComment first
  | openComment | openString =>
    rw [size] at long
    simp at long
  | string mark guarded => exact .string mark guarded
  | character double single comment start =>
    apply Filler.character double single
    · intro mark listed begins
      have short : ∀ mark ∈ commentMarks, mark.length = 2 := by decide
      apply comment mark listed
      apply prefix_of_prefix_append _ begins
      rw [short mark listed, List.length_cons]
      omega
    · intro longer
      apply start
      refine ⟨prefix_of_prefix_append ?_ longer.1, longer.2⟩
      rw [List.length_cons]
      omega

/-- By induction on the script: what stands behind its last semicolon is read on its own. -/
theorem EndsAssigned.readFrom_append (h : EndsAssigned before text) :
    ∃ rows, ∀ more, readFrom before (text ++ more) = (readAssignments more).map (rows ++ ·) := by
  induction h with
  | @last before body row admits assigns =>
    refine ⟨[row], ?_⟩
    intro more
    rw [List.append_assoc, List.singleton_append]
    exact readFrom_assigns admits assigns (.inl rfl)
  | filler passed rest ih =>
    obtain ⟨rows, later⟩ := ih
    refine ⟨rows, ?_⟩
    intro more
    have longer := passed.append rest.infix.length_le more
    rw [List.append_assoc, readFrom_filler longer, later]
  | @assigned before body after row admits assigns rest ih =>
    obtain ⟨rows, later⟩ := ih
    refine ⟨row :: rows, ?_⟩
    intro more
    have semicolon := admits_semicolon (before ++ (assignmentStart ++ body))
    rw [List.append_assoc] at semicolon
    rw [List.append_assoc, List.cons_append, readFrom_assigns admits assigns (.inl rfl),
      ← readFrom_restart (.inl semicolon), later]
    cases readAssignments more with
    | error problem => rfl
    | ok found => rfl
  | @enclosed before body tail c row admits assigns closing rest ih =>
    obtain ⟨rows, later⟩ := ih
    refine ⟨row :: rows, ?_⟩
    intro more
    have ends : c :: tail ++ more = [] ∨ ∃ d back, c :: tail ++ more = d :: back ∧
        isClosing d = true := .inr ⟨c, tail ++ more, rfl, closing⟩
    rw [List.append_assoc, readFrom_assigns admits assigns (.inr ⟨rfl, ends⟩),
      ← readFrom_restart (.inr (not_start_of_ends ends)), later]
    cases readAssignments more with
    | error problem => rfl
    | ok found => rfl

theorem EndsAssigned.readAssignments_append {rows : List (Namespace × List Entry)}
    (h : EndsAssigned [] text) (read : readAssignments text = .ok rows) (more : List Char) :
    readAssignments (text ++ more) = (readAssignments more).map (rows ++ ·) := by
  obtain ⟨found, later⟩ := h.readFrom_append
  have alone : readFrom [] text = .ok found := by
    have whole := later []
    rw [List.append_nil, ← readFrom_nil] at whole
    rw [whole, ← List.append_nil found]
    simp [readFrom, nextAssignment, Except.map]
  rw [readFrom_nil, read] at alone
  rw [← readFrom_nil, later, Except.ok.inj alone]

end Endings

def tailLine (c : Char) (content list : List Char) : List Char :=
  '\n' :: c :: (assignmentStart ++ (literalOf content ++ (']' :: ' ' :: '=' :: ' ' :: list)) ++ [';'])

section Lines

variable {c : Char} {content list : List Char} {name : Namespace} {value : Json.Value}
  {entries : List Entry}

theorem readAssignments_tailLine (double : c ≠ '"') (single : c ≠ '\x27') (content list : List Char) :
    readAssignments (tailLine c content list) =
      readFrom [c] (assignmentStart ++ (literalOf content ++ (']' :: ' ' :: '=' :: ' ' :: list)) ++
        [';']) := by
  rw [tailLine, readAssignments_newline, ← readFrom_nil]
  -- The name of the table starts behind the character, so neither a comment nor the name starts with it.
  refine @readFrom_filler [] [c] _ (.character double single ?_ ?_)
  · intro mark listed begins
    obtain ⟨tail, same⟩ := begins
    simp only [commentMarks, List.mem_cons, List.not_mem_nil, or_false] at listed
    rcases listed with rfl | rfl
    · simp at same
    · simp at same
  · intro start
    obtain ⟨tail, same⟩ := start.1
    simp [assignmentStart, tableName] at same

/-- Behind a character that continues a name, the name of the table does not start an assignment. -/
theorem passes_start (continues : continuesName c = true) (after : List Char) :
    readFrom [c] (assignmentStart ++ after) = readFrom ([c] ++ assignmentStart) after := by
  have letter : readFrom [c] (['i'] ++ (assignmentStart.tail ++ after)) =
      readFrom ([c] ++ ['i']) (assignmentStart.tail ++ after) := by
    apply readFrom_filler
    refine .character (by decide) (by decide) ?_ ?_
    · intro mark listed begins
      obtain ⟨tail, same⟩ := begins
      have slash : ∀ mark ∈ commentMarks, mark.head? = some '/' := by decide
      rw [← List.singleton_append] at same
      have first := congrArg List.head? same
      rw [List.head?_append, slash mark listed] at first
      simp at first
    · intro start
      rw [start.2 c rfl] at continues
      simp at continues
  have others : Passes assignmentStart.tail := passes_plain rfl
  calc readFrom [c] (assignmentStart ++ after)
      = readFrom ([c] ++ ['i']) (assignmentStart.tail ++ after) := letter
    _ = readFrom ([c] ++ ['i'] ++ assignmentStart.tail) after := others.readFrom_eq _ after
    _ = readFrom ([c] ++ assignmentStart) after := rfl

theorem readAssignments_longerName (continues : continuesName c = true)
    (key : Json.read (literalOf content) = some (.string name.text))
    (read : Json.read list = some value) : readAssignments (tailLine c content list) = .ok [] := by
  have double : c ≠ '"' := by
    rintro rfl
    simp [continuesName] at continues
  have single : c ≠ '\x27' := by
    rintro rfl
    simp [continuesName] at continues
  have equals : Passes [']', ' ', '=', ' '] := passes_plain rfl
  have semicolon : Passes [';'] := passes_character rfl
  have rest : Passes (literalOf content ++ ([']', ' ', '=', ' '] ++ list) ++ [';']) :=
    ((passes_of_written (Json.written_of_read key)).append
      (equals.append (passes_of_written (Json.written_of_read read)))).append semicolon
  rw [readAssignments_tailLine double single, List.append_assoc, passes_start continues]
  have passed := rest.readFrom_eq ([c] ++ assignmentStart) []
  rw [List.append_nil] at passed
  exact passed

theorem readAssignments_ownName (double : c ≠ '"') (single : c ≠ '\x27')
    (starts : continuesName c = false)
    (key : Json.read (literalOf content) = some (.string name.text))
    (read : Json.read list = some value) (items : entriesOf name value = .ok entries) :
    readAssignments (tailLine c content list) = .ok [(name, entries)] := by
  have admits : Admits [c] := by
    intro d last
    obtain rfl := Option.some.inj last
    exact starts
  obtain ⟨found, rfl, _⟩ := entriesOf_eq_ok_iff.mp items
  have spaced : Json.read (' ' :: list) = some (.array found) := by
    rw [Json.read, Json.tokens, if_pos (by decide)]
    exact read
  have assigns := @Assigns.intro [] content [] [' '] (' ' :: list) name.text _ entries
    Text.blank_nil Text.blank_nil Text.blank_space key (readListLiteral_of_read _ spaced) items
  have line := readFrom_assigns admits assigns (.inl rfl : Ends [';'] [])
  rw [← readFrom_nil] at line
  rw [readAssignments_tailLine double single]
  exact line

end Lines

section Results

variable {text : List Char} {key : TraitKey}

theorem stripMark_append (more : text ≠ []) (line : List Char) :
    stripMark (text ++ line) = stripMark text ++ line := by
  cases text with
  | nil => exact absurd rfl more
  | cons c rest =>
    rw [List.cons_append, stripMark, stripMark]
    split
    · rfl
    · rfl

theorem isJsonForm_append (ends : text.getLast? = some ';') (line : List Char) :
    isJsonForm (text ++ line) = isJsonForm text := by
  induction text with
  | nil => simp at ends
  | cons c rest ih =>
    rw [isJsonForm, isJsonForm, List.cons_append, Text.trimStart_cons, Text.trimStart_cons]
    split
    · rename_i blank
      cases rest with
      | nil =>
        obtain rfl : c = ';' := by simpa using ends
        exact absurd blank (by decide)
      | cons d rest =>
        rw [List.getLast?_cons_cons] at ends
        exact ih ends
    · rfl

theorem continuesName_iff {c : Char} :
    continuesName c = true ↔ c.isAlphanum = true ∨ c ∈ ['_', '$', '.'] := by
  simp [continuesName, or_assoc]

/-- A line behind a script adds to the lists of the script. -/
theorem readLists_append {rows : List (Namespace × List Entry)}
    (form : isJsonForm (stripMark text) = false) (ends : EndsAssigned [] (stripMark text))
    (read : readLists text = .ok rows) (line : List Char) :
    readLists (text ++ line) = (readAssignments line).map (rows ++ ·) := by
  have more : text ≠ [] := by
    rintro rfl
    exact absurd ends.getLast? (by simp [stripMark])
  have named : tableName <:+: stripMark text :=
    (List.prefix_append tableName ['[']).isInfix.trans ends.infix
  have longer := named.trans (List.prefix_append (stripMark text) line).isInfix
  simp only [readLists, form, Bool.false_eq_true, if_false, readScript,
    Text.containsWord_iff.mpr named, if_true] at read
  simp only [readLists, stripMark_append more, isJsonForm_append ends.getLast?, form,
    Bool.false_eq_true, if_false, readScript, Text.containsWord_iff.mpr longer, if_true]
  exact ends.readAssignments_append read line

/-- Behind a script that ends with an assignment, a line that assigns to a name with that of the table
at its end adds nothing if the character before is a letter or digit of ASCII, an underscore, a dollar
sign or a dot. Behind any other character but a quote the line assigns to the table. -/
theorem longer_name_adds_nothing (key : TraitKey) (script : String) (payload : Payload)
    (form : isJsonForm (stripMark script.toList) = false)
    (ends : EndsAssigned [] (stripMark script.toList)) (read : decode key script = .ok payload)
    (c : Char) (content list : List Char) (name : Namespace) (value : Json.Value)
    (entries : List Entry) (spelled : Json.read (literalOf content) = some (.string name.text))
    (listed : Json.read list = some value) (items : entriesOf name value = .ok entries) :
    ((c.isAlphanum = true ∨ c ∈ ['_', '$', '.']) →
      decode key (script ++ String.ofList (tailLine c content list)) = .ok payload) ∧
    (¬ (c.isAlphanum = true ∨ c ∈ ['_', '$', '.']) → c ≠ '"' → c ≠ '\x27' →
      decode key (script ++ String.ofList (tailLine c content list)) =
        .ok (payload.withGroup name entries)) := by
  simp only [← continuesName_iff]
  obtain ⟨rows, found, rfl⟩ : ∃ rows, readLists script.toList = .ok rows ∧
      Payload.ofGroups key rows = payload := by
    rw [decode] at read
    cases found : readLists script.toList with
    | error problem => simp [found, Except.map] at read
    | ok rows => exact ⟨rows, rfl, by simpa [found, Except.map] using read⟩
  have line := readLists_append form ends found (tailLine c content list)
  simp only [decode, String.toList_append, String.toList_ofList, line]
  constructor
  · intro continues
    rw [readAssignments_longerName continues spelled listed]
    simp [Except.map]
  · intro starts double single
    rw [readAssignments_ownName double single (Bool.eq_false_iff.mpr starts) spelled listed items]
    simp [Except.map, Payload.ofGroups, Payload.withGroup, Groups.ofList, Groups.insertAll]

/-- A script of one written line. -/
theorem endsAssigned_line :
    EndsAssigned [] (stripMark "implementors[\"a\"] = [\"x\"];".toList) := by
  have letters : stripMark "implementors[\"a\"] = [\"x\"];".toList = assignmentStart ++
      (literalOf ("a".toList.flatMap Json.writeChar) ++ (']' :: ' ' :: '=' :: ' ' ::
        (Json.Value.array ([⟨"x", none⟩].map valueOf)).write)) ++ [';'] := by decide +kernel
  rw [letters]
  exact .last admits_nil (assigns_line (⟨"a"⟩, [⟨"x", none⟩]))

theorem longer_name_adds_nothing_underscore :
    decode ⟨"T"⟩ "implementors[\"a\"] = [\"x\"];" =
      .ok (Payload.ofGroups ⟨"T"⟩ [(⟨"a"⟩, [⟨"x", none⟩])]) ∧
    decode ⟨"T"⟩ "implementors[\"a\"] = [\"x\"];\n_implementors[\"b\"] = [\"y\"];" =
      .ok (Payload.ofGroups ⟨"T"⟩ [(⟨"a"⟩, [⟨"x", none⟩])]) := by
  have read : decode ⟨"T"⟩ "implementors[\"a\"] = [\"x\"];" =
      .ok (Payload.ofGroups ⟨"T"⟩ [(⟨"a"⟩, [⟨"x", none⟩])]) := by decide +kernel
  have line : "implementors[\"a\"] = [\"x\"];\n_implementors[\"b\"] = [\"y\"];" =
      "implementors[\"a\"] = [\"x\"];" ++ String.ofList (tailLine '_'
        ("b".toList.flatMap Json.writeChar) (Json.Value.array ([⟨"y", none⟩].map valueOf)).write) := by
    decide +kernel
  refine ⟨read, ?_⟩
  rw [line]
  exact (longer_name_adds_nothing ⟨"T"⟩ _ _ (by decide +kernel) endsAssigned_line read '_' _ _ ⟨"b"⟩ _ _
    (read_name "b") (read_entries [⟨"y", none⟩]) (entriesFrom_valueOf ⟨"b"⟩ 0 _)).1 (by decide)

/-- Behind a letter beyond ASCII the line assigns to the table. -/
theorem accented_name_adds_group :
    EndsAssigned [] (stripMark "implementors[\"a\"] = [\"x\"];".toList) ∧
    decode ⟨"T"⟩ "implementors[\"a\"] = [\"x\"];" =
      .ok (Payload.ofGroups ⟨"T"⟩ [(⟨"a"⟩, [⟨"x", none⟩])]) ∧
    decode ⟨"T"⟩ "implementors[\"a\"] = [\"x\"];\néimplementors[\"b\"] = [\"y\"];" =
      .ok (Payload.ofGroups ⟨"T"⟩ [(⟨"a"⟩, [⟨"x", none⟩]), (⟨"b"⟩, [⟨"y", none⟩])]) ∧
    Payload.ofGroups ⟨"T"⟩ [(⟨"a"⟩, [⟨"x", none⟩]), (⟨"b"⟩, [⟨"y", none⟩])] ≠
      Payload.ofGroups ⟨"T"⟩ [(⟨"a"⟩, [⟨"x", none⟩])] := by
  exact ⟨endsAssigned_line, by decide +kernel, by decide +kernel, by decide +kernel⟩

end Results

end ImplementorIndex.Fragment
