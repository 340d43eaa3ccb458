import ImplementorIndex.Toml.Document
import ImplementorIndex.Toml.Scalar
import ImplementorIndex.Toml.Text

/-!
# Reading TOML documents

A document is a sequence of lines, each of which is empty, a comment, a header or a pair. Lists and
tables inside values may spread over lines, hold comments and end with a comma, and are nested up to
a limit. The readers of nested values also count down a bound that no text of its size can use up.
-/

namespace ImplementorIndex.Toml

def isKeyChar (c : Char) : Bool := c.isAlphanum || c = '_' || c = '-'

def readKeyPart (text : List Char) : Option (String × List Char) :=
  match text.takeWhile isKeyChar with
  | [] => readQuotedKey text
  | word => some (String.ofList word, text.dropWhile isKeyChar)

/-- Reads a key of at most so many parts, separated by dots. -/
def readKey : Nat → List Char → Option (List String × List Char)
  | 0, _ => none
  | most + 1, text => do
    let (part, rest) ← readKeyPart (skipBlanks text)
    match skipBlanks rest with
    | '.' :: rest => do
      let (parts, rest) ← readKey most rest
      pure (part :: parts, rest)
    | rest => pure ([part], rest)

/-- Lists and tables inside values are nested at most so deep. -/
def nestingLimit : Nat := 80

mutual

/-- Reads a value that nests lists and tables at most so deep. -/
def readValue : Nat → Nat → List Char → Option (Value × List Char)
  | 0, _, _ => none
  | most + 1, depth, text =>
    match text, depth with
    | '[' :: rest, depth + 1 => do
      let (items, rest) ← readItems most depth (skipSpace rest)
      pure (.array items, rest)
    | '\x7b' :: rest, depth + 1 => do
      let (pairs, rest) ← readPairs most depth (skipSpace rest)
      let rows ← tableOfPairs pairs
      pure (.table rows, rest)
    | '"' :: _, _ => (readString text).map fun read => (.string read.1, read.2)
    | '\x27' :: _, _ => (readString text).map fun read => (.string read.1, read.2)
    | _, _ => readScalar text

def readItems : Nat → Nat → List Char → Option (List Value × List Char)
  | 0, _, _ => none
  | _ + 1, _, ']' :: rest => some ([], rest)
  | most + 1, depth, text => do
    let (item, rest) ← readValue most depth text
    match skipSpace rest with
    | ',' :: rest => do
      let (items, rest) ← readItems most depth (skipSpace rest)
      pure (item :: items, rest)
    | ']' :: rest => pure ([item], rest)
    | _ => none

def readPairs : Nat → Nat → List Char → Option (List (List String × Value) × List Char)
  | 0, _, _ => none
  | _ + 1, _, '\x7d' :: rest => some ([], rest)
  | most + 1, depth, text => do
    let (key, rest) ← readKey most text
    let rest ← takeChar? '=' (skipSpace rest)
    let (value, rest) ← readValue most depth (skipSpace rest)
    match skipSpace rest with
    | ',' :: rest => do
      let (pairs, rest) ← readPairs most depth (skipSpace rest)
      pure ((key, value) :: pairs, rest)
    | '\x7d' :: rest => pure ([(key, value)], rest)
    | _ => none

end

/-- Reads a header or a pair, and the end of its line. -/
def readStatement (most : Nat) (text : List Char) : Option (Statement × List Char) := do
  match text with
  | '[' :: '[' :: rest =>
    let (key, rest) ← readKey most rest
    let rest ← endLine? (← Text.stripWord? [']', ']'] rest)
    pure (.appendTable key, rest)
  | '[' :: rest =>
    let (key, rest) ← readKey most rest
    let rest ← endLine? (← Text.stripWord? [']'] rest)
    pure (.openTable key, rest)
  | text =>
    let (key, rest) ← readKey most text
    let rest ← takeChar? '=' rest
    let (value, rest) ← readValue most nestingLimit (skipBlanks rest)
    let rest ← endLine? rest
    pure (.pair key value, rest)

/-- Reads at most so many statements, up to the end of the text. -/
def readStatements (bound : Nat) : Nat → List Char → Option (List Statement)
  | 0, _ => none
  | most + 1, text =>
    match skipSpace text with
    | [] => some []
    | text => do
      let (statement, rest) ← readStatement bound text
      let statements ← readStatements bound most rest
      pure (statement :: statements)

def dropMark : List Char → List Char
  | '\ufeff' :: rest => rest
  | text => text

def read (text : String) : Option (List (String × Value)) := do
  let text := dropMark text.toList
  let statements ← readStatements (2 * text.length + 2) (text.length + 1) text
  tableOfStatements statements

end ImplementorIndex.Toml
