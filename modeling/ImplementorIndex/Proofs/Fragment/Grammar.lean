import ImplementorIndex.Fragment.Reader
import ImplementorIndex.Proofs.Fragment.Nesting
import ImplementorIndex.Proofs.Json.RoundTrip

/-!
# The grammar of scripts

A script is a sequence of assignments to the table and of filler between them. The grammar is stated
here without the scanners: what a comment, a string and any other character of the filler is, what an
assignment is, and what must stand before and behind it. The main statement says that reading a
fragment in script form accepts exactly the texts of this grammar, and leaves the lists that the
assignments write one after the other.
-/

namespace ImplementorIndex.Fragment

open Text (Blank Guarded)

/-- The name of the table may start behind this text: it is not the tail of a longer name. -/
def Admits (before : List Char) : Prop :=
  ∀ c, before.getLast? = some c → continuesName c = false

def commentMarks : List (List Char) := [['/', '/'], ['/', '*']]

/-- One piece of filler, between the text before it and the text after it. -/
inductive Filler (before : List Char) : List Char → List Char → Prop where
  | lineComment {body after : List Char} (line : '\n' ∉ body)
    (ends : after = [] ∨ after.head? = some '\n') : Filler before ('/' :: '/' :: body) after
  | blockComment {body after : List Char} (first : ¬ ['*', '/'] <:+: body ++ ['*']) :
    Filler before ('/' :: '*' :: body ++ ['*', '/']) after
  | openComment {body : List Char} (never : ¬ ['*', '/'] <:+: body) :
    Filler before ('/' :: '*' :: body) []
  | string {quote : Char} {content after : List Char} (mark : quote = '"' ∨ quote = '\x27')
    (guarded : Guarded quote content) : Filler before (quote :: content ++ [quote]) after
  | openString {quote : Char} {content last : List Char} (mark : quote = '"' ∨ quote = '\x27')
    (guarded : Guarded quote content) (ends : last = [] ∨ last = ['\\']) :
    Filler before (quote :: content ++ last) []
  | character {c : Char} {after : List Char} (double : c ≠ '"') (single : c ≠ '\x27')
    (comment : ∀ mark ∈ commentMarks, ¬ mark <+: c :: after)
    (start : ¬ (assignmentStart <+: c :: after ∧ Admits before)) : Filler before [c] after

/-- What stands behind the start of an assignment: the key, the closing bracket, the equals sign and
the list, with blanks before and behind the key and before the equals sign. -/
inductive Assigns : Namespace × List Entry → List Char → Prop where
  | intro {front content middle back expression : List Char} {name : String} {value : Json.Value}
    {entries : List Entry} (blankFront : Blank front) (blankMiddle : Blank middle)
    (blankBack : Blank back) (key : Json.read (literalOf content) = some (.string name))
    (list : readListLiteral ⟨name⟩ expression = .ok value)
    (items : entriesOf ⟨name⟩ value = .ok entries) :
    Assigns (⟨name⟩, entries)
      (front ++ (literalOf content ++ (middle ++ ']' :: (back ++ '=' :: expression))))

/-- A text behind another one is a script with these assignments. -/
inductive Script : List Char → List Char → List (Namespace × List Entry) → Prop where
  | finished {before : List Char} : Script before [] []
  | filler {before piece after : List Char} {rows : List (Namespace × List Entry)}
    (passed : Filler before piece after) (rest : Script (before ++ piece) after rows) :
    Script before (piece ++ after) rows
  | assigned {before body after : List Char} {row : Namespace × List Entry}
    {rows : List (Namespace × List Entry)} (admits : Admits before) (assigns : Assigns row body)
    (rest : Script (before ++ (assignmentStart ++ body ++ [';'])) after rows) :
    Script before (assignmentStart ++ body ++ ';' :: after) (row :: rows)
  | enclosed {before body after : List Char} {row : Namespace × List Entry}
    {rows : List (Namespace × List Entry)} (admits : Admits before) (assigns : Assigns row body)
    (ends : after = [] ∨ ∃ c tail, after = c :: tail ∧ isClosing c = true)
    (rest : Script (before ++ (assignmentStart ++ body)) after rows) :
    Script before (assignmentStart ++ body ++ after) (row :: rows)

section Search

theorem mayStart_iff {before : List Char} : mayStart before.getLast? = true ↔ Admits before := by
  unfold mayStart Admits
  cases before.getLast? with
  | none => simp
  | some c => simp

theorem nextAssignment_lineComment {body : List Char} (line : '\n' ∉ body) (after : List Char) :
    nextAssignment .lineComment (body ++ after) = nextAssignment .lineComment after := by
  induction body with
  | nil => rfl
  | cons c body ih =>
    rw [List.mem_cons, not_or] at line
    have ne : c ≠ '\n' := fun e => line.1 e.symm
    simp [nextAssignment, ne, ih line.2]

/-- Inside a comment with an end mark, a character that does not begin the mark is passed. -/
theorem nextAssignment_blockComment_cons {c : Char} {rest : List Char}
    (h : ¬ ['*', '/'] <+: c :: rest) :
    nextAssignment .blockComment (c :: rest) = nextAssignment .blockComment rest := by
  rw [nextAssignment]
  rintro tail rfl rfl
  exact h ⟨tail, rfl⟩

theorem nextAssignment_blockComment {body : List Char} (first : ¬ ['*', '/'] <:+: body ++ ['*'])
    (after : List Char) :
    nextAssignment .blockComment (body ++ '*' :: '/' :: after) =
      nextAssignment (.code (some '/')) after := by
  induction body with
  | nil => rfl
  | cons c body ih =>
    rw [List.cons_append, List.infix_cons_iff, not_or] at first
    rw [List.cons_append, nextAssignment_blockComment_cons, ih first.2]
    intro mark
    apply first.1
    cases body with
    | nil => simp at mark
    | cons d body =>
      obtain ⟨rfl, rfl⟩ : c = '*' ∧ d = '/' := by simpa [eq_comm] using mark
      exact ⟨body ++ ['*'], rfl⟩

theorem nextAssignment_openComment {body : List Char} (never : ¬ ['*', '/'] <:+: body) :
    nextAssignment .blockComment body = none := by
  induction body with
  | nil => rfl
  | cons c body ih =>
    rw [List.infix_cons_iff, not_or] at never
    rw [nextAssignment_blockComment_cons never.1, ih never.2]

theorem nextAssignment_guarded {quote : Char} {content : List Char} (h : Guarded quote content)
    (after : List Char) :
    nextAssignment (.string quote) (content ++ after) = nextAssignment (.string quote) after := by
  induction h with
  | nil => rfl
  | escaped _ ih => exact ih
  | @plain c rest ne still _ ih =>
    rw [List.cons_append, nextAssignment, if_neg ne, ih]
    rintro _ _ rfl
    exact absurd rfl still

theorem nextAssignment_quote {quote : Char} (mark : quote = '"' ∨ quote = '\x27')
    (previous : Option Char) (rest : List Char) :
    nextAssignment (.code previous) (quote :: rest) = nextAssignment (.string quote) rest := by
  rcases mark with rfl | rfl <;> simp [nextAssignment]

theorem nextAssignment_closingQuote {quote : Char} (mark : quote = '"' ∨ quote = '\x27')
    (rest : List Char) :
    nextAssignment (.string quote) (quote :: rest) = nextAssignment (.code (some quote)) rest := by
  rcases mark with rfl | rfl <;> simp [nextAssignment]

/-- A character that begins neither a comment nor a string is passed, unless an assignment starts. -/
theorem nextAssignment_character {c : Char} {rest : List Char} {previous : Option Char}
    (double : c ≠ '"') (single : c ≠ '\x27') (comment : ∀ mark ∈ commentMarks, ¬ mark <+: c :: rest)
    (start : ¬ (assignmentStart <+: c :: rest ∧ mayStart previous = true)) :
    nextAssignment (.code previous) (c :: rest) = nextAssignment (.code (some c)) rest := by
  rw [nextAssignment]
  · simp only [double, single, decide_false, Bool.or_self, Bool.false_eq_true, if_false]
    split
    · rename_i after found
      have begins : assignmentStart <+: c :: rest :=
        ⟨after, (Text.stripWord?_eq_some_iff.mp found).symm⟩
      rw [if_neg fun may => start ⟨begins, may⟩]
    · rfl
  · rintro tail rfl rfl
    exact comment ['/', '/'] (by decide) ⟨tail, rfl⟩
  · rintro tail rfl rfl
    exact comment ['/', '*'] (by decide) ⟨tail, rfl⟩

theorem nextAssignment_start {before : List Char} (admits : Admits before) (rest : List Char) :
    nextAssignment (.code before.getLast?) (assignmentStart ++ rest) = some rest := by
  have found : nextAssignment (.code before.getLast?) (assignmentStart ++ rest) =
      if mayStart before.getLast? then some rest
      else nextAssignment (.code (some 'i')) (assignmentStart.tail ++ rest) := rfl
  rw [found, if_pos (mayStart_iff.mpr admits)]

/-- The search passes a piece of filler. -/
theorem nextAssignment_filler {before piece after : List Char} (h : Filler before piece after) :
    nextAssignment (.code before.getLast?) (piece ++ after) =
      nextAssignment (.code (before ++ piece).getLast?) after := by
  cases h with
  | @lineComment body _ line ends =>
    have inside : nextAssignment (.code before.getLast?) ('/' :: '/' :: body ++ after) =
        nextAssignment .lineComment after := nextAssignment_lineComment line after
    rw [inside]
    rcases ends with rfl | newline
    · rfl
    · obtain ⟨tail, rfl⟩ := List.head?_eq_some_iff.mp newline
      rfl
  | @blockComment body _ first =>
    have inside := nextAssignment_blockComment first after
    rw [List.append_assoc, show (before ++ ('/' :: '*' :: body ++ ['*', '/'])).getLast? = some '/' by
      simp [List.getLast?_append, List.getLast?_cons]]
    exact inside
  | @openComment body never =>
    rw [List.append_nil]
    exact nextAssignment_openComment never
  | @string quote content _ mark guarded =>
    rw [List.append_assoc, List.cons_append, nextAssignment_quote mark, nextAssignment_guarded guarded,
      List.singleton_append, nextAssignment_closingQuote mark,
      show (before ++ (quote :: content ++ [quote])).getLast? = some quote by
        simp [List.getLast?_append, List.getLast?_cons]]
  | @openString quote content last mark guarded ends =>
    rw [List.append_nil, List.cons_append, nextAssignment_quote mark, nextAssignment_guarded guarded]
    rcases ends with rfl | rfl
    · rfl
    · rcases mark with rfl | rfl <;> rfl
  | @character c _ double single comment start =>
    rw [List.singleton_append, nextAssignment_character double single comment, List.getLast?_concat]
    rintro ⟨begins, may⟩
    exact start ⟨begins, mayStart_iff.mp may⟩

end Search

section Pieces

theorem exists_line (text : List Char) :
    ∃ body after, text = body ++ after ∧ '\n' ∉ body ∧ (after = [] ∨ after.head? = some '\n') := by
  induction text with
  | nil => exact ⟨[], [], rfl, by simp, .inl rfl⟩
  | cons c text ih =>
    by_cases newline : c = '\n'
    · exact ⟨[], c :: text, rfl, by simp, .inr (by rw [newline]; rfl)⟩
    · obtain ⟨body, after, rfl, line, ends⟩ := ih
      refine ⟨c :: body, after, rfl, ?_, ends⟩
      rw [List.mem_cons, not_or]
      exact ⟨fun e => newline e.symm, line⟩

/-- The first end mark of a comment. -/
theorem exists_endMark {text : List Char} (h : ['*', '/'] <:+: text) :
    ∃ body after, text = body ++ '*' :: '/' :: after ∧ ¬ ['*', '/'] <:+: body ++ ['*'] := by
  induction text with
  | nil => simp at h
  | cons c text ih =>
    by_cases here : ['*', '/'] <+: c :: text
    · obtain ⟨after, same⟩ := here
      exact ⟨[], after, same.symm, by decide⟩
    · have later : ['*', '/'] <:+: text := (List.infix_cons_iff.mp h).resolve_left here
      obtain ⟨body, after, rfl, first⟩ := ih later
      refine ⟨c :: body, after, rfl, ?_⟩
      rw [List.cons_append, List.infix_cons_iff, not_or]
      refine ⟨?_, first⟩
      rintro ⟨tail, same⟩
      apply here
      -- A mark made of this character and the next is a mark at the front of the text.
      cases body with
      | nil => simp at same
      | cons d body =>
        obtain ⟨rfl, rfl⟩ : '*' = c ∧ '/' = d := by
          simp only [List.cons_append, List.nil_append, List.cons.injEq] at same
          exact ⟨same.1, same.2.1⟩
        exact ⟨body ++ '*' :: '/' :: after, rfl⟩

/-- A string goes up to its quote, or to the end of the text. -/
theorem exists_guarded (quote : Char) (text : List Char) :
    ∃ content after, text = content ++ after ∧ Guarded quote content ∧
      ((after = [] ∨ after = ['\\']) ∨ ∃ tail, after = quote :: tail) := by
  match text with
  | [] => exact ⟨[], [], rfl, .nil, .inl (.inl rfl)⟩
  | [c] =>
    by_cases quoted : c = quote
    · exact ⟨[], [c], rfl, .nil, .inr ⟨[], by rw [quoted]⟩⟩
    · by_cases slash : c = '\\'
      · exact ⟨[], [c], rfl, .nil, .inl (.inr (by rw [slash]))⟩
      · exact ⟨[c], [], rfl, .plain quoted slash .nil, .inl (.inl rfl)⟩
  | c :: d :: rest =>
    by_cases quoted : c = quote
    · exact ⟨[], c :: d :: rest, rfl, .nil, .inr ⟨d :: rest, by rw [quoted]⟩⟩
    · by_cases slash : c = '\\'
      · obtain ⟨content, after, same, guarded, ends⟩ := exists_guarded quote rest
        exact ⟨c :: d :: content, after, by rw [same]; rfl, slash ▸ .escaped guarded, ends⟩
      · obtain ⟨content, after, same, guarded, ends⟩ := exists_guarded quote (d :: rest)
        exact ⟨c :: content, after, by rw [same]; rfl, .plain quoted slash guarded, ends⟩

theorem exists_string {quote : Char} (mark : quote = '"' ∨ quote = '\x27') (before rest : List Char) :
    ∃ piece after, quote :: rest = piece ++ after ∧ piece ≠ [] ∧ Filler before piece after := by
  obtain ⟨content, after, rfl, guarded, ends | ⟨tail, rfl⟩⟩ := exists_guarded quote rest
  · exact ⟨quote :: content ++ after, [], by simp, by simp, .openString mark guarded ends⟩
  · exact ⟨quote :: content ++ [quote], tail, by simp, by simp, .string mark guarded⟩

theorem exists_comment (before rest : List Char) {mark : List Char} (listed : mark ∈ commentMarks) :
    ∃ piece after, mark ++ rest = piece ++ after ∧ piece ≠ [] ∧ Filler before piece after := by
  simp only [commentMarks, List.mem_cons, List.not_mem_nil, or_false] at listed
  rcases listed with rfl | rfl
  · obtain ⟨body, after, rfl, line, ends⟩ := exists_line rest
    exact ⟨'/' :: '/' :: body, after, rfl, by simp, .lineComment line ends⟩
  · by_cases closed : ['*', '/'] <:+: rest
    · obtain ⟨body, after, rfl, first⟩ := exists_endMark closed
      exact ⟨'/' :: '*' :: body ++ ['*', '/'], after, by simp, by simp, .blockComment first⟩
    · exact ⟨'/' :: '*' :: rest, [], by simp, by simp, .openComment closed⟩

/-- Where no assignment starts, a text begins with a piece of filler. -/
theorem exists_filler {before text : List Char} (more : text ≠ [])
    (start : ¬ (assignmentStart <+: text ∧ Admits before)) :
    ∃ piece after, text = piece ++ after ∧ piece ≠ [] ∧ Filler before piece after := by
  cases text with
  | nil => exact absurd rfl more
  | cons c rest =>
    by_cases mark : c = '"' ∨ c = '\x27'
    · exact exists_string mark before rest
    · by_cases comment : ∃ mark ∈ commentMarks, mark <+: c :: rest
      · obtain ⟨mark, listed, tail, same⟩ := comment
        rw [← same]
        exact exists_comment before tail listed
      · refine ⟨[c], rest, rfl, by simp, .character ?_ ?_ ?_ start⟩
        · exact fun e => mark (.inl e)
        · exact fun e => mark (.inr e)
        · exact fun m listed here => comment ⟨m, listed, here⟩

end Pieces

section Assignments

theorem closeLiteral_guarded {content : List Char} (h : Guarded '"' content) (rest : List Char) :
    closeLiteral false (content ++ '"' :: rest) = some (content, rest) := by
  induction h with
  | nil => rfl
  | @escaped c _ _ ih => simp [closeLiteral, ih]
  | plain ne still _ ih => simp [closeLiteral, ne, still, ih]

theorem closeLiteral_eq_some {escaped : Bool} {text content rest : List Char}
    (h : closeLiteral escaped text = some (content, rest)) : text = content ++ '"' :: rest := by
  induction text generalizing escaped content with
  | nil => simp [closeLiteral] at h
  | cons c text ih =>
    simp only [closeLiteral] at h
    split at h
    · rename_i quote
      simp only [Bool.and_eq_true, decide_eq_true_eq] at quote
      simp only [Option.some.injEq, Prod.mk.injEq] at h
      obtain ⟨rfl, rfl⟩ := h
      rw [quote.2]
      rfl
    · simp only [Option.map_eq_some_iff, Prod.mk.injEq] at h
      obtain ⟨split, later, rfl, rfl⟩ := h
      rw [@ih _ split.1 later]
      rfl

theorem readKey_literal {front content rest : List Char} {name : String} (blank : Blank front)
    (key : Json.read (literalOf content) = some (.string name)) :
    readKey (front ++ (literalOf content ++ rest)) = .ok (⟨name⟩, rest) := by
  have opened : Text.trimStart (front ++ (literalOf content ++ rest)) =
      '"' :: (content ++ '"' :: rest) := by
    rw [Text.trimStart_append blank, literalOf, List.append_assoc, List.cons_append,
      Text.trimStart_cons, if_neg (by decide)]
    rfl
  have closed := closeLiteral_guarded (Json.guarded_of_read key) rest
  simp only [readKey, opened, closed, key]

theorem exists_of_readKey {text rest : List Char} {name : Namespace}
    (h : readKey text = .ok (name, rest)) :
    ∃ front content, Blank front ∧ text = front ++ (literalOf content ++ rest) ∧
      Json.read (literalOf content) = some (.string name.text) := by
  obtain ⟨front, blank, split⟩ := Text.exists_trimStart text
  unfold readKey at h
  split at h
  · rename_i inner opened
    split at h
    · simp at h
    · rename_i content after closed
      split at h
      · rename_i found read
        simp only [Except.ok.injEq, Prod.mk.injEq] at h
        obtain ⟨rfl, rfl⟩ := h
        refine ⟨front, content, blank, ?_, read⟩
        rw [split, opened, closeLiteral_eq_some closed]
        simp [literalOf]
      · simp at h
  · simp at h

theorem stripMarkOf?_blank {mark : Char} {front : List Char} (blank : Blank front)
    (visible : Text.isBlank mark = false) (rest : List Char) :
    stripMarkOf? mark (front ++ mark :: rest) = some rest := by
  rw [stripMarkOf?, Text.trimStart_append blank, Text.trimStart_cons, visible]
  simp [Text.stripWord?]

theorem exists_of_stripMarkOf? {mark : Char} {text rest : List Char}
    (h : stripMarkOf? mark text = some rest) :
    ∃ front, Blank front ∧ text = front ++ mark :: rest := by
  obtain ⟨front, blank, split⟩ := Text.exists_trimStart text
  rw [stripMarkOf?, Text.stripWord?_eq_some_iff] at h
  exact ⟨front, blank, by rw [split, h]; rfl⟩

theorem stripAssign?_blank {middle back : List Char} (blankMiddle : Blank middle)
    (blankBack : Blank back) (rest : List Char) :
    stripAssign? (middle ++ ']' :: (back ++ '=' :: rest)) = some rest := by
  rw [stripAssign?, stripMarkOf?_blank blankMiddle (by decide), Option.bind_some,
    stripMarkOf?_blank blankBack (by decide)]

theorem exists_of_stripAssign? {text rest : List Char} (h : stripAssign? text = some rest) :
    ∃ middle back, Blank middle ∧ Blank back ∧ text = middle ++ ']' :: (back ++ '=' :: rest) := by
  obtain ⟨inner, bracket, equals⟩ := Option.bind_eq_some_iff.mp h
  obtain ⟨middle, blankMiddle, rfl⟩ := exists_of_stripMarkOf? bracket
  obtain ⟨back, blankBack, rfl⟩ := exists_of_stripMarkOf? equals
  exact ⟨middle, back, blankMiddle, blankBack, rfl⟩

/-- An assignment is read up to its end. -/
theorem readAssignment_of_assigns {row : Namespace × List Entry} {body after rest : List Char}
    (assigns : Assigns row body) (ends : Ends after rest) :
    readAssignment (body ++ after) = .ok (row, rest) := by
  cases assigns with
  | intro blankFront blankMiddle blankBack key list items =>
    simp only [List.append_assoc, List.cons_append]
    have split := splitExpression_of_run (run_of_readListLiteral list) ends
    simp only [readAssignment, readKey_literal blankFront key, bind, Except.bind,
      stripAssign?_blank blankMiddle blankBack, split, list, items, pure, Except.pure]

/-- What is read as an assignment is one. -/
theorem assigns_of_readAssignment {row : Namespace × List Entry} {text rest : List Char}
    (h : readAssignment text = .ok (row, rest)) :
    ∃ body after, text = body ++ after ∧ Assigns row body ∧ Ends after rest := by
  unfold readAssignment at h
  cases hk : readKey text with
  | error problem => simp [hk, bind, Except.bind] at h
  | ok key =>
    obtain ⟨name, afterKey⟩ := key
    obtain ⟨front, content, blankFront, rfl, read⟩ := exists_of_readKey hk
    simp only [hk, bind, Except.bind] at h
    split at h
    · simp at h
    · rename_i afterEquals equals
      obtain ⟨middle, back, blankMiddle, blankBack, rfl⟩ := exists_of_stripAssign? equals
      split at h
      · simp at h
      · rename_i expression left divided
        obtain ⟨after, rfl, ends⟩ := ends_of_splitExpression divided
        split at h
        · simp at h
        · rename_i value list
          split at h
          · simp at h
          · rename_i entries items
            simp only [pure, Except.pure, Except.ok.injEq, Prod.mk.injEq] at h
            obtain ⟨rfl, rfl⟩ := h
            exact ⟨_, after, by simp, .intro blankFront blankMiddle blankBack read list items, ends⟩

end Assignments

section Reading

def readFrom (before text : List Char) : Except Malformed (List (Namespace × List Entry)) :=
  match nextAssignment (.code before.getLast?) text with
  | none => .ok []
  | some after =>
    match readAssignment after with
    | .error problem => .error problem
    | .ok (row, rest) => (readAssignments rest).map (row :: ·)

theorem readFrom_nil (text : List Char) : readFrom [] text = readAssignments text := by
  rw [readAssignments, readFrom, List.getLast?_nil]
  cases nextAssignment (.code none) text with
  | none => rfl
  | some after =>
    dsimp only
    cases readAssignment after with
    | error problem => rfl
    | ok read => rfl

theorem readFrom_filler {before piece after : List Char} (h : Filler before piece after) :
    readFrom before (piece ++ after) = readFrom (before ++ piece) after := by
  rw [readFrom, readFrom, nextAssignment_filler h]

theorem Filler.of_not_start {before other piece after : List Char} (h : Filler before piece after)
    (start : ¬ assignmentStart <+: piece ++ after) : Filler other piece after := by
  cases h with
  | lineComment line ends => exact .lineComment line ends
  | blockComment first => exact .blockComment first
  | openComment never => exact .openComment never
  | string mark guarded => exact .string mark guarded
  | openString mark guarded ends => exact .openString mark guarded ends
  | character double single comment _ => exact .character double single comment fun h => start h.1

theorem admits_nil : Admits [] := by
  intro c last
  simp at last

/-- The search may forget what stands before the text, where an assignment could start or does not. -/
theorem nextAssignment_restart {before text : List Char}
    (h : Admits before ∨ ¬ assignmentStart <+: text) :
    nextAssignment (.code before.getLast?) text = nextAssignment (.code none) text := by
  by_cases start : assignmentStart <+: text
  · obtain ⟨rest, rfl⟩ := start
    have admits := h.resolve_right fun no => no ⟨rest, rfl⟩
    rw [nextAssignment_start admits]
    exact (nextAssignment_start admits_nil rest).symm
  · cases text with
    | nil => rfl
    | cons c tail =>
      obtain ⟨piece, after, same, more, passed⟩ :=
        @exists_filler before (c :: tail) (List.cons_ne_nil c tail) fun h => start h.1
      rw [same] at start ⊢
      have alone := nextAssignment_filler (passed.of_not_start start : Filler [] piece after)
      rw [List.nil_append, List.getLast?_nil] at alone
      rw [nextAssignment_filler passed, alone, List.getLast?_append, List.getLast?_eq_some_getLast more,
        Option.some_or]

theorem readFrom_restart {before text : List Char}
    (h : Admits before ∨ ¬ assignmentStart <+: text) :
    readFrom before text = readAssignments text := by
  rw [← readFrom_nil, readFrom, readFrom, nextAssignment_restart h, List.getLast?_nil]

theorem admits_semicolon (before : List Char) : Admits (before ++ [';']) := by
  intro c last
  rw [List.getLast?_concat] at last
  obtain rfl := Option.some.inj last
  decide

theorem not_start_of_ends {text : List Char}
    (ends : text = [] ∨ ∃ c tail, text = c :: tail ∧ isClosing c = true) :
    ¬ assignmentStart <+: text := by
  rintro ⟨rest, same⟩
  rcases ends with rfl | ⟨c, tail, rfl, closing⟩
  · simp [assignmentStart, tableName] at same
  · simp only [assignmentStart, tableName, List.cons_append, List.cons.injEq] at same
    rw [← same.1] at closing
    simp [isClosing] at closing

/-- Reading an assignment where one starts. -/
theorem readFrom_assigns {before body after rest : List Char} {row : Namespace × List Entry}
    (admits : Admits before) (assigns : Assigns row body) (ends : Ends after rest) :
    readFrom before (assignmentStart ++ body ++ after) = (readAssignments rest).map (row :: ·) := by
  rw [readFrom, List.append_assoc, nextAssignment_start admits]
  simp only [readAssignment_of_assigns assigns ends]

theorem readFrom_of_script {before text : List Char} {rows : List (Namespace × List Entry)}
    (h : Script before text rows) : readFrom before text = .ok rows := by
  induction h with
  | finished => rfl
  | filler passed _ ih => rw [readFrom_filler passed, ih]
  | @assigned before body after row rows admits assigns _ ih =>
    have semicolon := admits_semicolon (before ++ (assignmentStart ++ body))
    rw [List.append_assoc] at semicolon
    rw [readFrom_assigns admits assigns (.inl rfl), ← readFrom_restart (.inl semicolon), ih]
    rfl
  | enclosed admits assigns ends _ ih =>
    rw [readFrom_assigns admits assigns (.inr ⟨rfl, ends⟩),
      ← readFrom_restart (.inr (not_start_of_ends ends)), ih]
    rfl

/-- By induction on the length of the text: an assignment is read, or a piece of filler is passed. -/
theorem script_of_readFrom {before text : List Char} {rows : List (Namespace × List Entry)}
    (h : readFrom before text = .ok rows) : Script before text rows := by
  induction size : text.length using Nat.strongRecOn generalizing before text rows with
  | ind size ih =>
    subst size
    by_cases start : assignmentStart <+: text ∧ Admits before
    · obtain ⟨⟨inner, rfl⟩, admits⟩ := start
      rw [readFrom, nextAssignment_start admits] at h
      dsimp only at h
      split at h
      · simp at h
      · rename_i row rest read
        have shorter : rest.length < (assignmentStart ++ inner).length := by
          have read := length_readAssignment read
          rw [List.length_append]
          omega
        obtain ⟨body, after, rfl, assigns, ends⟩ := assigns_of_readAssignment read
        cases later : readAssignments rest with
        | error problem => simp [later, Except.map] at h
        | ok found =>
          obtain rfl : row :: found = rows := by simpa [later, Except.map] using h
          rw [← List.append_assoc]
          rcases ends with rfl | ⟨rfl, ends⟩
          · have semicolon := admits_semicolon (before ++ (assignmentStart ++ body))
            rw [List.append_assoc] at semicolon
            rw [← readFrom_restart (.inl semicolon)] at later
            exact .assigned admits assigns (ih _ shorter later rfl)
          · rw [← readFrom_restart (.inr (not_start_of_ends ends))] at later
            exact .enclosed admits assigns ends (ih _ shorter later rfl)
    · by_cases empty : text = []
      · subst empty
        obtain rfl : [] = rows := Except.ok.inj h
        exact .finished
      · obtain ⟨piece, after, rfl, more, passed⟩ := exists_filler empty start
        have shorter : after.length < (piece ++ after).length := by
          have size := List.length_pos_iff.mpr more
          rw [List.length_append]
          omega
        rw [readFrom_filler passed] at h
        exact .filler passed (ih _ shorter h rfl)

theorem readAssignments_eq_ok_iff {text : List Char} {rows : List (Namespace × List Entry)} :
    readAssignments text = .ok rows ↔ Script [] text rows := by
  rw [← readFrom_nil]
  exact ⟨script_of_readFrom, readFrom_of_script⟩

end Reading

section Results

/-- A text that is not in JSON form is read exactly when it names the table and is a script, and then
the payload holds what the assignments of the script write one after the other. -/
theorem decode_eq_ok_iff_script (key : TraitKey) (text : String) (payload : Payload)
    (form : (Text.trimStart (stripMark text.toList)).head? ≠ some '\x7b') :
    decode key text = .ok payload ↔
      tableName <:+: stripMark text.toList ∧
      ∃ rows, Script [] (stripMark text.toList) rows ∧
        payload = rows.foldl (fun payload row => payload.withGroup row.1 row.2) ⟨key, .empty⟩ := by
  have script : isJsonForm (stripMark text.toList) = false := by simpa [isJsonForm] using form
  simp only [decode, readLists, script, Bool.false_eq_true, if_false, readScript, foldl_withGroup,
    ← Text.containsWord_iff, ← readAssignments_eq_ok_iff]
  by_cases named : Text.containsWord tableName (stripMark text.toList) = true
  · simp only [named, if_true, true_and]
    cases readAssignments (stripMark text.toList) with
    | error problem => simp [Except.map]
    | ok rows => simp [Except.map, Payload.ofGroups, Groups.ofList, eq_comm]
  · simp [named, Except.map]

theorem decode_eq_ok_iff_script_enclosed :
    (Text.trimStart (stripMark "/*i*/implementors[\"a\"]=[]\x7d".toList)).head? ≠ some '\x7b' ∧
    decode ⟨"Clone"⟩ "/*i*/implementors[\"a\"]=[]\x7d" =
      .ok (([(⟨"a"⟩, [])] : List (Namespace × List Entry)).foldl
        (fun payload row => payload.withGroup row.1 row.2) ⟨⟨"Clone"⟩, .empty⟩) := by
  have form : (Text.trimStart (stripMark "/*i*/implementors[\"a\"]=[]\x7d".toList)).head? ≠
      some '\x7b' := by decide +kernel
  have letters : stripMark "/*i*/implementors[\"a\"]=[]\x7d".toList =
      '/' :: '*' :: ['i'] ++ ['*', '/'] ++ (assignmentStart ++
        ([] ++ (literalOf ['a'] ++ ([] ++ ']' :: ([] ++ '=' :: ['[', ']'])))) ++ ['\x7d']) := by
    decide +kernel
  have key : Json.read (literalOf ['a']) = some (.string "a") :=
    (Json.readable_string 0 "a").read (by decide)
  have empty : Json.read ['[', ']'] = some (.array []) :=
    (Json.readable_array (by simp) : Json.Readable 1 (.array [])).read (by decide)
  have list : readListLiteral ⟨"a"⟩ ['[', ']'] = .ok (.array []) := by
    have bare : stripBrackets? (Text.trim ['[', ']']) = some [] := by decide
    simp [readListLiteral, bare, empty]
  have admits : Admits ([] ++ ('/' :: '*' :: ['i'] ++ ['*', '/'])) := by
    intro c last
    obtain rfl : '/' = c := by simpa using last
    decide
  refine ⟨form, (decode_eq_ok_iff_script _ _ _ form).mpr ⟨by decide +kernel, _, ?_, rfl⟩⟩
  rw [letters]
  refine .filler (.blockComment (by decide)) (.enclosed admits ?_ (.inr ⟨_, _, rfl, rfl⟩) ?_)
  · exact .intro Text.blank_nil Text.blank_nil Text.blank_nil key list rfl
  · exact .filler (.character (by decide) (by decide) (by decide) (by simp [assignmentStart, tableName]))
      .finished

end Results

end ImplementorIndex.Fragment
