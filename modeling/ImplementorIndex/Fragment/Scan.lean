import ImplementorIndex.Text.Blank
import ImplementorIndex.Text.Word

/-!
# Scanning a script

The script form of a fragment is searched, not parsed: the scanners of this module find where the
next assignment to the table of implementors starts, where the literal of its key ends, and where
its value ends. They know of comments, strings, escapes and brackets and of nothing else. Each runs
once through the text from left to right.
-/

namespace ImplementorIndex.Fragment

def tableName : List Char := ['i', 'm', 'p', 'l', 'e', 'm', 'e', 'n', 't', 'o', 'r', 's']

def assignmentStart : List Char := tableName ++ ['[']

/-- A character that may be part of a name in a script, or that selects a member. After it the name
of the table is the tail of something longer. Letters and digits are those of ASCII. -/
def continuesName (c : Char) : Bool := c.isAlphanum || c = '_' || c = '$' || c = '.'

/-- Where the search for an assignment stands. -/
inductive Mode where
  /-- between statements, with the character just passed -/
  | code (previous : Option Char)
  /-- inside a comment that ends with the line -/
  | lineComment
  /-- inside a comment that ends with its mark -/
  | blockComment
  /-- inside a string that ends with its quote -/
  | string (quote : Char)
deriving DecidableEq

def mayStart (previous : Option Char) : Bool :=
  match previous with
  | none => true
  | some c => !continuesName c

def nextAssignment : Mode → List Char → Option (List Char)
  | _, [] => none
  | .lineComment, c :: rest =>
    if c = '\n' then nextAssignment (.code (some c)) rest else nextAssignment .lineComment rest
  | .blockComment, '*' :: '/' :: rest => nextAssignment (.code (some '/')) rest
  | .blockComment, _ :: rest => nextAssignment .blockComment rest
  | .string quote, '\\' :: _ :: rest => nextAssignment (.string quote) rest
  | .string quote, c :: rest =>
    if c = quote then nextAssignment (.code (some c)) rest else nextAssignment (.string quote) rest
  | .code _, '/' :: '/' :: rest => nextAssignment .lineComment rest
  | .code _, '/' :: '*' :: rest => nextAssignment .blockComment rest
  | .code previous, c :: rest =>
    if c = '"' || c = '\x27' then nextAssignment (.string c) rest
    else
      match Text.stripWord? assignmentStart (c :: rest) with
      | some after => if mayStart previous then some after else nextAssignment (.code (some c)) rest
      | none => nextAssignment (.code (some c)) rest

/-- The content of a literal whose opening quote was passed, and the text behind its closing quote.
A backslash hides the character after it. -/
def closeLiteral (escaped : Bool) : List Char → Option (List Char × List Char)
  | [] => none
  | c :: rest =>
    if !escaped && c = '"' then some ([], rest)
    else (closeLiteral (!escaped && c = '\\') rest).map fun split => (c :: split.1, split.2)

def isOpening (c : Char) : Bool := c = '[' || c = '\x7b' || c = '('

def isClosing (c : Char) : Bool := c = ']' || c = '\x7d' || c = ')'

/-- Where the search for the end of an expression stands, with the number of open brackets. -/
inductive Nesting where
  | outside (depth : Nat)
  | inString (depth : Nat)
  | escaped (depth : Nat)
deriving DecidableEq

/-- What one character does to the search for the end of an expression. -/
inductive Move where
  /-- the expression goes on -/
  | onward (next : Nesting)
  /-- the expression ended before the character -/
  | endBefore
  /-- the expression ends with the character, which is dropped -/
  | endAfter
deriving DecidableEq

/-- An expression ends at a semicolon outside strings and brackets, and before a bracket that closes
nothing. -/
def Nesting.move : Nesting → Char → Move
  | .escaped depth, _ => .onward (.inString depth)
  | .inString depth, c =>
    if c = '\\' then .onward (.escaped depth)
    else if c = '"' then .onward (.outside depth)
    else .onward (.inString depth)
  | .outside depth, c =>
    if c = '"' then .onward (.inString depth)
    else if isOpening c then .onward (.outside (depth + 1))
    else if isClosing c then
      match depth with
      | 0 => .endBefore
      | depth + 1 => .onward (.outside depth)
    else if c = ';' && depth = 0 then .endAfter
    else .onward (.outside depth)

/-- Splits an expression off a text. Where the text ends, so does the expression, unless a string or
a bracket is open. -/
def splitExpression (nesting : Nesting) : List Char → Option (List Char × List Char)
  | [] => if nesting = .outside 0 then some ([], []) else none
  | c :: rest =>
    match nesting.move c with
    | .onward next => (splitExpression next rest).map fun split => (c :: split.1, split.2)
    | .endBefore => some ([], c :: rest)
    | .endAfter => some ([], rest)

theorem length_nextAssignment {mode : Mode} {text rest : List Char}
    (h : nextAssignment mode text = some rest) : rest.length < text.length := by
  fun_induction nextAssignment mode text generalizing rest
  case case1 => simp at h
  case case12 hs hm =>
    have := Text.length_stripWord? hs
    have hw : 0 < assignmentStart.length := by decide
    simp only [Option.some.injEq] at h
    rw [this, ← h]
    omega
  all_goals
    rename_i ih
    have := ih h
    simp only [List.length_cons]
    omega

theorem length_closeLiteral {escaped : Bool} {text content rest : List Char}
    (h : closeLiteral escaped text = some (content, rest)) : rest.length < text.length := by
  induction text generalizing escaped content rest with
  | nil => simp [closeLiteral] at h
  | cons c tail ih =>
    simp only [closeLiteral] at h
    split at h
    · simp only [Option.some.injEq, Prod.mk.injEq] at h
      simp [← h.2]
    · simp only [Option.map_eq_some_iff, Prod.mk.injEq] at h
      obtain ⟨split, hs, _, h⟩ := h
      have := ih hs
      simp only [List.length_cons, ← h]
      omega

theorem length_splitExpression {nesting : Nesting} {text expression rest : List Char}
    (h : splitExpression nesting text = some (expression, rest)) : rest.length ≤ text.length := by
  induction text generalizing nesting expression rest with
  | nil => simp_all [splitExpression]
  | cons c tail ih =>
    simp only [splitExpression] at h
    split at h
    · simp only [Option.map_eq_some_iff, Prod.mk.injEq] at h
      obtain ⟨split, hs, _, h⟩ := h
      have := ih hs
      simp only [List.length_cons, ← h]
      omega
    · simp only [Option.some.injEq, Prod.mk.injEq] at h
      simp [← h.2]
    · simp only [Option.some.injEq, Prod.mk.injEq] at h
      simp [← h.2]

end ImplementorIndex.Fragment
