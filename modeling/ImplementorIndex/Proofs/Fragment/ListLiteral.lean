import ImplementorIndex.Proofs.Fragment.Shapes
import ImplementorIndex.Proofs.Json.Arrays

/-!
# List literals

The value of an assignment is an array that may have a comma behind its last item. The comma is taken
off the text before the array is read, so it has to be shown that it is neither part of a string nor of
a nested value, and that nothing becomes an array by losing it. The main statement says that list
literals are the arrays of JSON and these with one more comma, and nothing else.
-/

namespace ImplementorIndex.Fragment

open Json (Value)
open Text (Blank)

section Brackets

variable {name : Namespace} {text body inside : List Char} {comma : Bool} {value : Value}

/-- A text in square brackets, with blanks around it. Between the brackets stand the body, one comma if
there is one behind the body, and blanks. -/
inductive Bracketed : List Char → List Char → Bool → Prop where
  | bare {front body gap back : List Char} (blankFront : Blank front) (blankGap : Blank gap)
    (blankBack : Blank back)
    (ends : ∀ c, body.getLast? = some c → Text.isBlank c = false ∧ c ≠ ',') :
    Bracketed (front ++ '[' :: (body ++ gap ++ ']' :: back)) body false
  | comma {front body gap back : List Char} (blankFront : Blank front) (blankGap : Blank gap)
    (blankBack : Blank back) :
    Bracketed (front ++ '[' :: (body ++ ',' :: gap ++ ']' :: back)) body true

/-- What trimming a text in brackets leaves. -/
theorem Bracketed.exists_inside (h : Bracketed text body comma) :
    ∃ inside, Text.trim text = '[' :: inside ++ [']'] ∧
      Text.trimEnd inside = body ++ (if comma then [','] else []) ∧
      (comma = false → body.getLast? ≠ some ',') := by
  cases h with
  | bare blankFront blankGap blankBack ends =>
    refine ⟨_, trim_brackets blankFront blankBack _, ?_, ?_⟩
    · rw [Text.trimEnd_append _ blankGap, Text.trimEnd_of_visible fun c last => (ends c last).1]
      simp
    · intro _ last
      exact (ends ',' last).2 rfl
  | @comma front body gap back blankFront blankGap blankBack =>
    refine ⟨_, trim_brackets blankFront blankBack _, ?_, by simp⟩
    rw [Text.trimEnd_append_cons (by decide), Text.trimEnd_blank blankGap]
    rfl

theorem exists_bracketed (h : Text.trim text = '[' :: inside ++ [']']) :
    ∃ body comma, Bracketed text body comma := by
  obtain ⟨front, back, blankFront, blankBack, split⟩ := Text.exists_trim text
  have outside : text = front ++ '[' :: (inside ++ ']' :: back) := by
    rw [split, h]
    simp
  obtain ⟨gap, blankGap, ends⟩ := Text.exists_trimEnd inside
  by_cases last : (Text.trimEnd inside).getLast? = some ','
  · obtain ⟨body, same⟩ := List.getLast?_eq_some_iff.mp last
    have parts : inside = body ++ ',' :: gap := by
      rw [ends, same]
      simp
    rw [outside, parts]
    exact ⟨body, true, .comma blankFront blankGap blankBack⟩
  · rw [outside, ends]
    refine ⟨Text.trimEnd inside, false, .bare blankFront blankGap blankBack ?_⟩
    intro c final
    exact ⟨Text.visible_of_trimEnd final, fun same => last (same ▸ final)⟩

def readItems (name : Namespace) (body : List Char) : Except Malformed Value :=
  match Json.read ('[' :: body ++ [']']) with
  | some value => .ok value
  | none => .error (.listInvalid name)

theorem readItems_eq_ok_iff :
    readItems name body = .ok value ↔ Json.read ('[' :: body ++ [']']) = some value := by
  unfold readItems
  cases Json.read ('[' :: body ++ [']']) with
  | none => simp
  | some found => simp

theorem readListLiteral_of_bracketed (h : Bracketed text body comma) :
    readListLiteral name text =
      if comma = true ∧ Text.trim body = [] then .error (.loneHole name)
      else readItems name body := by
  obtain ⟨inside, trimmed, ends, bare⟩ := h.exists_inside
  rw [readListLiteral, trimmed, stripBrackets?_brackets]
  dsimp only
  cases comma with
  | false =>
    have ends : Text.trimEnd inside = body := by simpa using ends
    rw [ends, if_neg (bare rfl), if_neg (by simp)]
    rfl
  | true =>
    have ends : Text.trimEnd inside = body ++ [','] := ends
    rw [ends, if_pos (by simp), List.dropLast_concat]
    by_cases empty : Text.trim body = []
    · rw [if_pos empty, if_pos ⟨rfl, empty⟩]
    · rw [if_neg empty, if_neg fun both => empty both.2]
      rfl

theorem readListLiteral_of_not_bracketed (h : ∀ body comma, ¬ Bracketed text body comma) :
    readListLiteral name text = .error (.notList name) := by
  cases brackets : stripBrackets? (Text.trim text) with
  | none => simp [readListLiteral, brackets]
  | some inside =>
    obtain ⟨body, comma, bracketed⟩ := exists_bracketed (stripBrackets?_eq_some brackets)
    exact absurd bracketed (h body comma)

theorem exists_bracketed_of_readListLiteral (h : readListLiteral name text = .ok value) :
    ∃ body comma, Bracketed text body comma := by
  by_contra none
  rw [readListLiteral_of_not_bracketed fun body comma h => none ⟨body, comma, h⟩] at h
  simp at h

end Brackets

section Items

variable {name : Namespace} {text body : List Char} {comma : Bool} {items : List Value} {value : Value}

/-- An array has no items when nothing but blanks stands between its brackets. -/
theorem items_eq_nil_iff (h : Json.read ('[' :: body ++ [']']) = some (.array items)) :
    items = [] ↔ Blank body := by
  obtain ⟨_, words, same, cut, _, inside⟩ := Json.exists_items_of_read h
  obtain rfl := Value.array.inj same
  constructor
  · intro empty
    rcases inside with ⟨_, rfl⟩ | written
    · exact blank_of_spaces (Json.space_of_tokens_nil cut)
    · exact absurd empty written.ne_nil.1
  · intro blank
    have none := @Json.tokens_of_append_blank [] _ _ blank cut
    obtain rfl : words = [] := by simpa [Json.tokens, eq_comm] using none
    rcases inside with ⟨empty, _⟩ | written
    · exact empty
    · exact absurd rfl written.ne_nil.2

/-- A comma behind the last item makes no difference. -/
theorem readListLiteral_comma (name : Namespace) (bracketed : Bracketed text body true)
    (read : Json.read ('[' :: body ++ [']']) = some (.array items)) (more : items ≠ []) :
    readListLiteral name text = .ok (.array items) := by
  rw [readListLiteral_of_bracketed bracketed, if_neg]
  · exact readItems_eq_ok_iff.mpr read
  · rintro ⟨_, empty⟩
    exact more ((items_eq_nil_iff read).mpr (Text.trim_eq_nil_iff.mp empty))

theorem exists_items_of_bracketed (bracketed : Bracketed text body comma)
    (h : readListLiteral name text = .ok value) :
    ∃ items, value = .array items ∧ Json.Written .element ('[' :: body ++ [']']) ∧
      Json.read ('[' :: body ++ [']']) = some (.array items) ∧ (comma = true → items ≠ []) := by
  rw [readListLiteral_of_bracketed bracketed] at h
  split at h
  · simp at h
  · rename_i full
    have read := readItems_eq_ok_iff.mp h
    obtain ⟨items, _, rfl, _⟩ := Json.exists_items_of_read read
    refine ⟨items, rfl, Json.written_of_read read, read, ?_⟩
    intro trailing empty
    exact full ⟨trailing, Text.trim_eq_nil_iff.mpr ((items_eq_nil_iff read).mp empty)⟩

theorem exists_array_of_readListLiteral (h : readListLiteral name text = .ok value) :
    ∃ items, value = .array items := by
  obtain ⟨body, comma, bracketed⟩ := exists_bracketed_of_readListLiteral h
  obtain ⟨items, same, _⟩ := exists_items_of_bracketed bracketed h
  exact ⟨items, same⟩

end Items

section Holes

variable {name : Namespace} {inside front back : List Char} {value : Value} {words : List Json.Token}

/-- The text between the brackets of a list misses an item before a comma: nothing but blanks stands
before the first comma, or between two commas. The first of two commas must be outside strings, which
goes without saying when the second one ends the list. -/
inductive Hole : List Char → Prop where
  | first {gap rest : List Char} (blank : Blank gap) : Hole (gap ++ ',' :: rest)
  | between {left gap rest : List Char} {words : List Json.Token}
    (outside : Json.tokens left = some words) (blank : Blank gap) :
    Hole (left ++ ',' :: (gap ++ ',' :: rest))
  | last {left gap back : List Char} (blank : Blank gap) (blankBack : Blank back) :
    Hole (left ++ ',' :: (gap ++ ',' :: back))

/-- The words between the brackets, with the comma behind the last item, lead the reader to where an
item or the end of the array may come. -/
theorem exists_takeAll_of_readListLiteral (blankFront : Blank front) (blankBack : Blank back)
    (h : readListLiteral name (front ++ '[' :: (inside ++ ']' :: back)) = .ok value) :
    ∃ words state, Json.tokens (Text.trimEnd inside) = some words ∧
      (Json.State.arrayStart []).takeAll words = some state := by
  have brackets := trim_brackets blankFront blankBack inside
  obtain ⟨body, comma, bracketed⟩ := exists_bracketed brackets
  obtain ⟨items, rfl, _, read, full⟩ := exists_items_of_bracketed bracketed h
  obtain ⟨_, trimmed, ends, _⟩ := bracketed.exists_inside
  rw [brackets] at trimmed
  obtain rfl := (List.append_inj' (List.cons.inj trimmed).2 rfl).1
  obtain ⟨_, words, same, cut, made, _⟩ := Json.exists_items_of_read read
  obtain rfl := Value.array.inj same
  obtain ⟨state, through, closed⟩ := Json.exists_takeAll made
  rw [ends]
  cases comma with
  | false => exact ⟨words, state, by simpa using cut, through⟩
  | true =>
    obtain ⟨next, announced⟩ := Json.exists_take_comma (full rfl) closed
    have cutComma := @Json.tokens_append_mark _ _ .comma _ cut rfl []
    refine ⟨words ++ [.comma], next, by simpa [Json.tokens] using cutComma, ?_⟩
    rw [Json.State.takeAll_append, through, Option.bind_some, Json.State.takeAll, announced]
    rfl

/-- A hole in a text is one among its words. -/
theorem words_of_hole (h : Hole inside) (cut : Json.tokens (Text.trimEnd inside) = some words) :
    (∃ rest, words = .comma :: rest) ∨ ∃ left right, words = left ++ .comma :: .comma :: right := by
  have visible : Text.isBlank ',' = false := by decide
  cases h with
  | first blank =>
    rw [Text.trimEnd_append_cons visible] at cut
    obtain ⟨later, rfl, _⟩ := Json.exists_tokens_comma blank cut
    exact .inl ⟨later, rfl⟩
  | @between left gap rest before outside blank =>
    rw [Text.trimEnd_append_cons visible, Text.trimEnd_append_cons visible,
      @Json.tokens_append_mark _ _ .comma _ outside rfl] at cut
    obtain ⟨behind, cutBehind, rfl⟩ := Option.map_eq_some_iff.mp cut
    obtain ⟨later, rfl, _⟩ := Json.exists_tokens_comma blank cutBehind
    exact .inr ⟨before, later, rfl⟩
  | @last left gap back blank blankBack =>
    -- Both commas stand at the end, the one behind the other, so they are the last two words.
    rw [Text.trimEnd_append_cons visible, Text.trimEnd_append_cons visible,
      Text.trimEnd_blank blankBack, ← List.cons_append, ← List.append_assoc] at cut
    obtain ⟨before, rfl⟩ := List.getLast?_eq_some_iff.mp
      (Json.getLast?_tokens cut List.getLast?_concat)
    have cutBefore := Json.tokens_of_concat rfl cut
    rw [← List.singleton_append, ← List.append_assoc] at cutBefore
    have cutComma := Json.tokens_of_append_blank blank cutBefore
    obtain ⟨left, rfl⟩ := List.getLast?_eq_some_iff.mp
      (Json.getLast?_tokens cutComma List.getLast?_concat)
    exact .inr ⟨left, [], by simp⟩

/-- A list in which an item is missing is refused. -/
theorem exists_error_of_hole (name : Namespace) (hole : Hole inside) (blankFront : Blank front)
    (blankBack : Blank back) :
    ∃ problem, readListLiteral name (front ++ '[' :: (inside ++ ']' :: back)) = .error problem := by
  cases result : readListLiteral name (front ++ '[' :: (inside ++ ']' :: back)) with
  | error problem => exact ⟨problem, rfl⟩
  | ok value =>
    obtain ⟨words, state, cut, through⟩ :=
      exists_takeAll_of_readListLiteral blankFront blankBack result
    obtain ⟨noFirst, noPair⟩ := Json.no_hole_of_takeAll through
    rcases words_of_hole hole cut with ⟨rest, first⟩ | ⟨left, right, pair⟩
    · exact absurd first (noFirst rest)
    · exact absurd pair (noPair left right)

end Holes

section Neighbours

variable {name : Namespace} {text body rest : List Char} {value other : Value}

theorem whole_of_read (h : Json.read ('[' :: body ++ [']']) = some value) : Whole body := by
  obtain ⟨items, words, _, cut, _, ⟨_, rfl⟩ | written⟩ := Json.exists_items_of_read h
  · exact Nesting.run_spaces (Json.space_of_tokens_nil cut) 0
  · exact Nesting.run_of_written (written.written cut) 0

theorem exists_whole_of_readListLiteral (h : readListLiteral name text = .ok value) :
    ∃ front inside back, Blank front ∧ Blank back ∧
      text = front ++ '[' :: (inside ++ ']' :: back) ∧ Whole inside := by
  obtain ⟨front, body, comma, gap, back, blankFront, blankGap, blankBack, trailing, rfl, read⟩ :=
    exists_body_of_readListLiteral h
  refine ⟨front, body ++ comma ++ gap, back, blankFront, blankBack, by simp, ?_⟩
  have inside : (Nesting.outside 0).run comma = some (.outside 0) := by
    rcases trailing with rfl | rfl <;> rfl
  rw [Whole, Nesting.run_append, Nesting.run_append, whole_of_read read, Option.bind_some, inside,
    Option.bind_some, Nesting.run_blank blankGap]

/-- Behind a list literal nothing but blanks may stand: its last bracket closes its first one. -/
theorem blank_of_readListLiteral_append (h : readListLiteral name text = .ok value)
    (h' : readListLiteral name (text ++ rest) = .ok other) : Blank rest := by
  obtain ⟨front, inside, back, blankFront, _, rfl, whole⟩ := exists_whole_of_readListLiteral h
  obtain ⟨ahead, within, behind, blankAhead, blankBehind, same, alike⟩ :=
    exists_whole_of_readListLiteral h'
  simp only [List.append_assoc, List.cons_append] at same
  have equal := eq_of_blank_mark (by decide) blankFront blankAhead same
  obtain ⟨_, after, _⟩ := whole.unique alike (ends_bracket _) (ends_bracket _) equal
  intro c member
  apply blankBehind c
  rw [← (List.cons.inj after).2]
  exact List.mem_append_right back member

end Neighbours

section Scripts

/-- Reads an assignment as `readAssignment` does, with another reading of entry lists. -/
def readAssignmentBy (entries : Namespace → Value → Except Malformed (List Entry))
    (text : List Char) : Except Malformed ((Namespace × List Entry) × List Char) := do
  let (name, text) ← readKey text
  match stripAssign? text with
  | none => .error (.assignmentExpected name)
  | some text =>
    match splitExpression (.outside 0) text with
    | none => .error .listUnterminated
    | some (expression, rest) =>
      let value ← readListLiteral name expression
      let found ← entries name value
      return ((name, found), rest)

theorem readAssignmentBy_entriesOf : readAssignmentBy entriesOf = readAssignment := rfl

/-- What is made of values other than arrays does not matter to a script. -/
theorem readAssignmentBy_congr {entries others : Namespace → Value → Except Malformed (List Entry)}
    (agree : ∀ name items, entries name (.array items) = others name (.array items)) :
    readAssignmentBy entries = readAssignmentBy others := by
  funext text
  unfold readAssignmentBy
  cases readKey text with
  | error problem => rfl
  | ok key =>
    obtain ⟨name, after⟩ := key
    simp only [bind, Except.bind]
    cases stripAssign? after with
    | none => rfl
    | some behind =>
      dsimp only
      cases splitExpression (.outside 0) behind with
      | none => rfl
      | some split =>
        obtain ⟨expression, rest⟩ := split
        dsimp only
        cases result : readListLiteral name expression with
        | error problem => rfl
        | ok value =>
          obtain ⟨items, rfl⟩ := exists_array_of_readListLiteral result
          dsimp only
          rw [agree]

end Scripts

section Results

/-- List literals are a conservative extension of the arrays of JSON. An array is read as what it is,
and with a comma behind its last item still as that. Whatever is read is an array by the grammar of
JSON once the comma is gone, with an item before the comma if there was one. A list in which an item
is missing is refused, and so is what is not in brackets and what has anything behind the brackets. An
assignment in a script never asks for the entries of a value other than an array. -/
theorem trailing_comma_conservative (name : Namespace) (text : List Char) :
    (∀ items, Json.read text = some (.array items) →
      readListLiteral name text = .ok (.array items)) ∧
    (∀ front body gap back items, Blank front → Blank gap → Blank back →
      text = front ++ '[' :: (body ++ ',' :: gap ++ ']' :: back) →
      Json.read ('[' :: body ++ [']']) = some (.array items) → items ≠ [] →
      readListLiteral name text = .ok (.array items)) ∧
    (∀ value, readListLiteral name text = .ok value →
      (∃ body comma, Bracketed text body comma) ∧
      ∀ body comma, Bracketed text body comma →
        ∃ items, value = .array items ∧ Json.Written .element ('[' :: body ++ [']']) ∧
          Json.read ('[' :: body ++ [']']) = some (.array items) ∧ (comma = true → items ≠ [])) ∧
    (∀ front inside back, Blank front → Blank back → Hole inside →
      text = front ++ '[' :: (inside ++ ']' :: back) →
      ∃ problem, readListLiteral name text = .error problem) ∧
    ((∀ body comma, ¬ Bracketed text body comma) →
      readListLiteral name text = .error (.notList name)) ∧
    (∀ value rest, readListLiteral name text = .ok value → ¬ Blank rest →
      ∃ problem, readListLiteral name (text ++ rest) = .error problem) ∧
    (∀ entries : Namespace → Value → Except Malformed (List Entry),
      (∀ name items, entries name (.array items) = entriesOf name (.array items)) →
      readAssignmentBy entries = readAssignment) := by
  refine ⟨?_, ?_, ?_, ?_, readListLiteral_of_not_bracketed, ?_, ?_⟩
  · intro items read
    exact readListLiteral_of_read name read
  · rintro front body gap back items blankFront blankGap blankBack rfl read more
    exact readListLiteral_comma name (.comma blankFront blankGap blankBack) read more
  · intro value result
    refine ⟨exists_bracketed_of_readListLiteral result, ?_⟩
    intro body comma bracketed
    exact exists_items_of_bracketed bracketed result
  · rintro front inside back blankFront blankBack hole rfl
    exact exists_error_of_hole name hole blankFront blankBack
  · intro value rest result visible
    cases result' : readListLiteral name (text ++ rest) with
    | error problem => exact ⟨problem, rfl⟩
    | ok other => exact absurd (blank_of_readListLiteral_append result result') visible
  · intro entries agree
    rw [← readAssignmentBy_entriesOf]
    exact readAssignmentBy_congr agree

theorem trailing_comma_conservative_marksInString :
    Json.read ['[', '"', ',', ']', '"', ',', '\u3000', ']', '\n'] = none ∧
    readListLiteral ⟨"a"⟩ ['[', '"', ',', ']', '"', ',', '\u3000', ']', '\n'] =
      .ok (.array [.string ",]"]) ∧
    (∃ body comma, Bracketed ['[', '"', ',', ']', '"', ']'] body comma) ∧
    readListLiteral ⟨"a"⟩ ['[', '"', ',', ']', '"', ']'] = .ok (.array [.string ",]"]) ∧
    (∃ problem, readListLiteral ⟨"a"⟩
      (['[', '"', ',', ']', '"', ']'] ++ [',', '[', '1', ']']) = .error problem) ∧
    (∃ problem, readListLiteral ⟨"a"⟩ ['[', '"', 'x', '"', ',', ',', ']'] = .error problem) ∧
    readListLiteral ⟨"a"⟩ ['\x7b', '\x7d'] = .error (.notList ⟨"a"⟩) ∧
    readAssignmentBy (fun name value =>
      match value with
      | .array items => entriesFrom name 0 items
      | _ => .ok []) = readAssignment := by
  have cut : Json.tokens ['[', '"', ',', ']', '"', ']'] =
      some [.openArray, .string ",]", .closeArray] := by decide +kernel
  have read : Json.read ['[', '"', ',', ']', '"', ']'] = some (.array [.string ",]"]) := by
    rw [Json.read, cut]
    rfl
  have wide : Blank ['\u3000'] := by
    intro c member
    rw [List.mem_singleton.mp member]
    decide
  have line : Blank ['\n'] := by
    intro c member
    rw [List.mem_singleton.mp member]
    decide
  have visible : ¬ Blank [',', '[', '1', ']'] := by
    intro blank
    have comma := blank ',' List.mem_cons_self
    exact absurd comma (by decide)
  have braces : ∀ body comma, ¬ Bracketed ['\x7b', '\x7d'] body comma := by
    intro body comma bracketed
    obtain ⟨inside, trimmed, _⟩ := bracketed.exists_inside
    rw [show Text.trim ['\x7b', '\x7d'] = ['\x7b', '\x7d'] by decide] at trimmed
    simp at trimmed
  obtain ⟨strict, _, closed, _, _, alone, _⟩ :=
    trailing_comma_conservative ⟨"a"⟩ ['[', '"', ',', ']', '"', ']']
  have result := strict _ read
  refine ⟨by decide +kernel, ?_, (closed _ result).1, result, alone _ _ result visible, ?_, ?_, ?_⟩
  · exact (trailing_comma_conservative ⟨"a"⟩ _).2.1 [] ['"', ',', ']', '"'] ['\u3000'] ['\n'] _
      Text.blank_nil wide line rfl read (List.cons_ne_nil _ _)
  · exact (trailing_comma_conservative ⟨"a"⟩ _).2.2.2.1 [] ['"', 'x', '"', ',', ','] []
      Text.blank_nil Text.blank_nil (@Hole.last ['"', 'x', '"'] _ _ Text.blank_nil Text.blank_nil) rfl
  · exact (trailing_comma_conservative ⟨"a"⟩ _).2.2.2.2.1 braces
  · apply (trailing_comma_conservative ⟨"a"⟩ []).2.2.2.2.2.2
    intro name items
    rfl

end Results

end ImplementorIndex.Fragment
