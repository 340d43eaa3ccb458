import ImplementorIndex.Fragment.EntryList
import ImplementorIndex.Fragment.Scan
import ImplementorIndex.Proofs.Json.Grammar

/-!
# No expression is cut short

The end of an expression is looked for by counting brackets outside strings. A JSON text, of any depth
and with any strings in it, leads this search through and back to the depth where it started. So the
search finds the end of the text where the text ends, and not inside it. The same holds of a list
literal, which may have a comma behind its last item.
-/

namespace ImplementorIndex

namespace Fragment

open Text (Blank Guarded)

namespace Nesting

/-- Where the search stands behind a text in which the expression does not end. -/
def run (nesting : Nesting) : List Char → Option Nesting
  | [] => some nesting
  | c :: rest =>
    match nesting.move c with
    | .onward next => next.run rest
    | .endBefore => none
    | .endAfter => none

theorem run_append (text more : List Char) (nesting : Nesting) :
    nesting.run (text ++ more) = (nesting.run text).bind fun next => next.run more := by
  induction text generalizing nesting with
  | nil => rfl
  | cons c rest ih =>
    simp only [List.cons_append, run]
    split
    · exact ih _
    · rfl
    · rfl

/-- What one character can do. -/
theorem move_cases (nesting : Nesting) (c : Char) :
    (∃ next, nesting.move c = .onward next) ∨ (nesting.move c = .endBefore ∧ isClosing c = true) ∨
      (nesting.move c = .endAfter ∧ c = ';') := by
  cases nesting with
  | escaped depth => exact .inl ⟨_, rfl⟩
  | inString depth =>
    simp only [move]
    split
    · exact .inl ⟨_, rfl⟩
    · split
      · exact .inl ⟨_, rfl⟩
      · exact .inl ⟨_, rfl⟩
  | outside depth =>
    simp only [move]
    split
    · exact .inl ⟨_, rfl⟩
    · split
      · exact .inl ⟨_, rfl⟩
      · split
        · rename_i closing
          split
          · exact .inr (.inl ⟨rfl, closing⟩)
          · exact .inl ⟨_, rfl⟩
        · split
          · rename_i last
            exact .inr (.inr ⟨rfl, of_decide_eq_true (Bool.and_eq_true_iff.mp last).1⟩)
          · exact .inl ⟨_, rfl⟩

/-- A character that neither delimits strings nor nests nor ends an expression. -/
def isPlain (c : Char) : Bool := c ≠ '"' && !isOpening c && !isClosing c && c ≠ ';'

theorem move_plain {c : Char} (h : isPlain c = true) (depth : Nat) :
    (outside depth).move c = .onward (outside depth) := by
  simp only [isPlain, Bool.and_eq_true, Bool.not_eq_true', decide_eq_true_eq] at h
  obtain ⟨⟨⟨quote, opening⟩, closing⟩, semicolon⟩ := h
  simp [move, quote, opening, closing, semicolon]

theorem run_plain {text : List Char} (h : ∀ c ∈ text, isPlain c = true) (depth : Nat) :
    (outside depth).run text = some (outside depth) := by
  induction text with
  | nil => rfl
  | cons c rest ih =>
    simp only [run, move_plain (h c List.mem_cons_self)]
    exact ih fun c hm => h c (List.mem_cons_of_mem _ hm)

def special : List Char := ['"', '[', '\x7b', '(', ']', '\x7d', ')', ';']

theorem special_of_not_plain {c : Char} (h : isPlain c = false) : c ∈ special := by
  by_cases quote : c = '"'
  · simp [special, quote]
  · by_cases semicolon : c = ';'
    · simp [special, semicolon]
    · simp only [isPlain, isOpening, isClosing, quote, semicolon, ne_eq, not_false_eq_true,
        decide_true, Bool.true_and, Bool.and_true, Bool.and_eq_false_iff, Bool.not_eq_false',
        Bool.or_eq_true, decide_eq_true_eq] at h
      rcases h with ((rfl | rfl) | rfl) | (rfl | rfl) | rfl <;> simp [special]

/-- A kind of characters is plain when no special character is of that kind. -/
theorem isPlain_of {kind : Char → Bool} (none : special.any kind = false) {c : Char}
    (h : kind c = true) : isPlain c = true := by
  cases plain : isPlain c with
  | true => rfl
  | false =>
    have found : special.any kind = true := List.any_eq_true.mpr ⟨c, special_of_not_plain plain, h⟩
    simp [none] at found

theorem run_blank {blanks : List Char} (h : Blank blanks) (depth : Nat) :
    (outside depth).run blanks = some (outside depth) :=
  run_plain (fun c hm => isPlain_of rfl (h c hm)) depth

theorem run_guarded {content : List Char} (h : Guarded '"' content) (depth : Nat) :
    (inString depth).run content = some (inString depth) := by
  induction h with
  | nil => rfl
  | escaped _ ih => simpa [run, move] using ih
  | plain ne still _ ih => simpa [run, move, ne, still] using ih

/-- A string between its quotes leads through. -/
theorem run_literal {content : List Char} (h : Guarded '"' content) (depth : Nat) :
    (outside depth).run ('"' :: content ++ ['"']) = some (outside depth) := by
  have inside : (inString depth).run (content ++ ['"']) = some (outside depth) := by
    rw [run_append, run_guarded h]
    simp [run, move]
  simpa [run, move] using inside

theorem run_spaces {spaces : List Char} (h : Json.Spaces spaces) (depth : Nat) :
    (outside depth).run spaces = some (outside depth) :=
  run_plain (fun c member => isPlain_of rfl (h c member)) depth

theorem move_opening {c : Char} (h : isOpening c = true) (depth : Nat) :
    (outside depth).move c = .onward (outside (depth + 1)) := by
  simp only [isOpening, Bool.or_eq_true, decide_eq_true_eq] at h
  rcases h with (rfl | rfl) | rfl <;> rfl

theorem move_closing {c : Char} (h : isClosing c = true) (depth : Nat) :
    (outside depth).move c =
      match depth with
      | 0 => .endBefore
      | depth + 1 => .onward (outside depth) := by
  simp only [isClosing, Bool.or_eq_true, decide_eq_true_eq] at h
  rcases h with (rfl | rfl) | rfl <;> rfl

/-- Brackets around a text that stays inside them. -/
theorem run_enclosed {opening closing : Char} {body : List Char} {depth : Nat}
    (opens : isOpening opening = true) (closes : isClosing closing = true)
    (h : (outside (depth + 1)).run body = some (outside (depth + 1))) :
    (outside depth).run (opening :: body ++ [closing]) = some (outside depth) := by
  simp only [List.cons_append, run, move_opening opens, run_append, h, Option.bind_some,
    move_closing closes]

/-- By induction on the grammar: a part of a JSON text leads through and back to its depth. -/
theorem run_of_written {form : Json.Form} {text : List Char} (h : Json.Written form text)
    (depth : Nat) : (outside depth).run text = some (outside depth) := by
  induction h generalizing depth with
  | word known =>
    apply run_plain
    intro c member
    have all : ∀ word ∈ Json.words, word.all isPlain = true := by decide
    exact List.all_eq_true.mp (all _ known) c member
  | number h => exact run_plain (fun c member => isPlain_of rfl (h.chars c member)) depth
  | string h => exact run_literal h.guarded depth
  | emptyArray h => exact run_enclosed rfl rfl (run_spaces h (depth + 1))
  | array _ ih => exact run_enclosed rfl rfl (ih (depth + 1))
  | emptyObject h => exact run_enclosed rfl rfl (run_spaces h (depth + 1))
  | object _ ih => exact run_enclosed rfl rfl (ih (depth + 1))
  | element h _ h' ih =>
    rw [run_append, run_spaces h, Option.bind_some, run_append, ih, Option.bind_some, run_spaces h']
  | member h content h' _ ih =>
    rw [run_append, run_spaces h, Option.bind_some, run_append, run_literal content.guarded,
      Option.bind_some, run_append, run_spaces h']
    exact ih depth
  | last _ ih => exact ih depth
  | more _ _ ih ih' =>
    rw [run_append, ih]
    exact ih' depth

/-- Between the brackets of a list literal the depth is one. -/
theorem run_body {body : List Char} {value : Json.Value}
    (h : Json.read ('[' :: body ++ [']']) = some value) :
    (outside 1).run body = some (outside 1) := by
  have through := run_of_written (Json.written_of_read h) 0
  rw [List.cons_append] at through
  replace through : (outside 1).run (body ++ [']']) = some (outside 0) := through
  rw [run_append, Option.bind_eq_some_iff] at through
  obtain ⟨last, before, close⟩ := through
  -- The last bracket leads to depth zero outside strings from depth one outside strings only.
  cases last with
  | outside depth =>
    cases depth with
    | zero => simp [run, move, isOpening, isClosing] at close
    | succ depth =>
      obtain rfl : depth = 0 := by simpa [run, move, isOpening, isClosing] using close
      exact before
  | inString depth => simp [run, move] at close
  | escaped depth => simp [run, move] at close

end Nesting

theorem stripBrackets?_eq_some {text body : List Char} (h : stripBrackets? text = some body) :
    text = '[' :: body ++ [']'] := by
  unfold stripBrackets? at h
  split at h
  · rename_i rest
    split at h
    · rename_i last
      obtain ⟨front, rfl⟩ := List.getLast?_eq_some_iff.mp last
      rw [← Option.some.inj h, List.dropLast_concat]
      rfl
    · simp at h
  · simp at h

/-- A list literal that is read is an array, with blanks around it and perhaps a comma and blanks
before its closing bracket. -/
theorem exists_body_of_readListLiteral {name : Namespace} {expression : List Char}
    {value : Json.Value} (h : readListLiteral name expression = .ok value) :
    ∃ front body comma gap back, Blank front ∧ Blank gap ∧ Blank back ∧ (comma = [] ∨ comma = [',']) ∧
      expression = front ++ ('[' :: (body ++ comma ++ gap) ++ [']'] ++ back) ∧
      Json.read ('[' :: body ++ [']']) = some value := by
  obtain ⟨front, back, hf, hb, split⟩ := Text.exists_trim expression
  unfold readListLiteral at h
  split at h
  · simp at h
  · rename_i inside brackets
    obtain ⟨gap, hg, ends⟩ := Text.exists_trimEnd inside
    rw [stripBrackets?_eq_some brackets] at split
    dsimp only at h
    split at h
    · rename_i last
      obtain ⟨body, comma⟩ := List.getLast?_eq_some_iff.mp last
      rw [comma, List.dropLast_concat] at h
      split at h
      · simp at h
      · split at h
        · rename_i read
          obtain rfl := Except.ok.inj h
          exact ⟨front, body, [','], gap, back, hf, hg, hb, .inr rfl, by rw [← comma, ← ends, split],
            read⟩
        · simp at h
    · split at h
      · rename_i read
        obtain rfl := Except.ok.inj h
        exact ⟨front, Text.trimEnd inside, [], gap, back, hf, hg, hb, .inl rfl,
          by rw [List.append_nil, ← ends, split], read⟩
      · simp at h

/-- A list literal leads through an expression. -/
theorem run_of_readListLiteral {name : Namespace} {expression : List Char} {value : Json.Value}
    (h : readListLiteral name expression = .ok value) :
    (Nesting.outside 0).run expression = some (.outside 0) := by
  obtain ⟨front, body, comma, gap, back, hf, hg, hb, hc, rfl, read⟩ :=
    exists_body_of_readListLiteral h
  have inside : (Nesting.outside 1).run (body ++ comma ++ gap) = some (.outside 1) := by
    rw [Nesting.run_append, Nesting.run_append, Nesting.run_body read]
    rcases hc with rfl | rfl
    · exact Nesting.run_blank hg 1
    · exact Nesting.run_blank hg 1
  rw [Nesting.run_append, Nesting.run_blank hf]
  show (Nesting.outside 0).run _ = _
  rw [Nesting.run_append, Nesting.run_enclosed rfl rfl inside]
  exact Nesting.run_blank hb 0

/-- What may stand behind an expression, and what is left of it. -/
def Ends (after rest : List Char) : Prop :=
  after = ';' :: rest ∨ (after = rest ∧ (rest = [] ∨ ∃ c tail, rest = c :: tail ∧ isClosing c = true))

theorem splitExpression_of_run {nesting : Nesting} {expression after rest : List Char}
    (h : nesting.run expression = some (.outside 0)) (ends : Ends after rest) :
    splitExpression nesting (expression ++ after) = some (expression, rest) := by
  induction expression generalizing nesting with
  | nil =>
    obtain rfl := Option.some.inj h
    rcases ends with rfl | ⟨rfl, rfl | ⟨c, tail, rfl, closing⟩⟩
    · rfl
    · rfl
    · simp [splitExpression, Nesting.move_closing closing]
  | cons c expression ih =>
    simp only [Nesting.run] at h
    split at h
    · rename_i next onward
      rw [List.cons_append, splitExpression, onward]
      simp [ih h]
    · simp at h
    · simp at h

theorem ends_of_splitExpression {nesting : Nesting} {text expression rest : List Char}
    (h : splitExpression nesting text = some (expression, rest)) :
    ∃ after, text = expression ++ after ∧ Ends after rest := by
  induction text generalizing nesting expression with
  | nil =>
    simp only [splitExpression] at h
    split at h
    · simp only [Option.some.injEq, Prod.mk.injEq] at h
      obtain ⟨rfl, rfl⟩ := h
      exact ⟨[], rfl, .inr ⟨rfl, .inl rfl⟩⟩
    · simp at h
  | cons c text ih =>
    rcases nesting.move_cases c with ⟨next, moved⟩ | ⟨moved, closing⟩ | ⟨moved, rfl⟩
    · simp only [splitExpression, moved, Option.map_eq_some_iff, Prod.mk.injEq] at h
      obtain ⟨split, later, rfl, rfl⟩ := h
      obtain ⟨after, same, ends⟩ := @ih _ split.1 later
      exact ⟨after, by rw [same]; rfl, ends⟩
    · simp only [splitExpression, moved, Option.some.injEq, Prod.mk.injEq] at h
      obtain ⟨rfl, rfl⟩ := h
      exact ⟨c :: text, rfl, .inr ⟨rfl, .inr ⟨c, text, rfl, closing⟩⟩⟩
    · simp only [splitExpression, moved, Option.some.injEq, Prod.mk.injEq] at h
      obtain ⟨rfl, rfl⟩ := h
      exact ⟨';' :: text, rfl, .inl rfl⟩

/-- An expression that is a JSON text between blanks is split off whole: up to a semicolon, up to a
bracket that closes nothing, and up to the end of the text. -/
theorem whole_expression {front text back : List Char} (written : Json.Written .element text)
    (blankFront : Blank front) (blankBack : Blank back) :
    (∀ tail, splitExpression (.outside 0) (front ++ (text ++ back) ++ ';' :: tail) =
      some (front ++ (text ++ back), tail)) ∧
    (∀ closing ∈ [']', '\x7d', ')'], ∀ tail,
      splitExpression (.outside 0) (front ++ (text ++ back) ++ closing :: tail) =
        some (front ++ (text ++ back), closing :: tail)) ∧
    splitExpression (.outside 0) (front ++ (text ++ back)) = some (front ++ (text ++ back), []) := by
  have through : (Nesting.outside 0).run (front ++ (text ++ back)) = some (.outside 0) := by
    rw [Nesting.run_append, Nesting.run_blank blankFront, Option.bind_some, Nesting.run_append,
      Nesting.run_of_written written, Option.bind_some, Nesting.run_blank blankBack]
  refine ⟨?_, ?_, ?_⟩
  · intro tail
    exact splitExpression_of_run through (.inl rfl)
  · intro closing listed tail
    apply splitExpression_of_run through
    refine .inr ⟨rfl, .inr ⟨closing, tail, rfl, ?_⟩⟩
    simpa [isClosing, or_assoc] using listed
  · have ends := splitExpression_of_run through (.inr ⟨rfl, .inl rfl⟩)
    rwa [List.append_nil] at ends

/-- Half a surrogate pair is in the grammar, although it stands for nothing. -/
theorem whole_expression_halfPair :
    Json.read ['[', '"', ']', '\\', 'u', 'd', '8', '0', '0', '"', ']'] = none ∧
    splitExpression (.outside 0)
      ([' '] ++ (['[', '"', ']', '\\', 'u', 'd', '8', '0', '0', '"', ']'] ++ ['\n']) ++ [';', '1']) =
        some ([' '] ++ (['[', '"', ']', '\\', 'u', 'd', '8', '0', '0', '"', ']'] ++ ['\n']), ['1']) := by
  have hex : ['d', '8', '0', '0'].all (fun c => (Json.hexValue? c).isSome) = true := rfl
  have content : Json.Content [']', '\\', 'u', 'd', '8', '0', '0'] :=
    .plain (by decide) (by decide) (by decide)
      (@Json.Content.code ['d', '8', '0', '0'] [] rfl (List.all_eq_true.mp hex) .nil)
  have element := Json.Written.element Json.spaces_nil (.string content) Json.spaces_nil
  have written := Json.Written.element Json.spaces_nil (.array (.last element)) Json.spaces_nil
  have blank : Blank ['\n'] := by
    intro c member
    rw [List.mem_singleton.mp member]
    decide
  exact ⟨by decide +kernel, (whole_expression written Text.blank_space blank).1 ['1']⟩

end Fragment

end ImplementorIndex
