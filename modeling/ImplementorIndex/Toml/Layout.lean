/-!
# Blanks, line ends and comments of TOML

A blank is a space or a tab. A line ends with a line feed, before which a carriage return may stand.
A comment runs to the end of its line and holds no control character but the tab.
-/

namespace ImplementorIndex.Toml

def isBlank (c : Char) : Bool := c = ' ' || c = '\t'

/-- A control character that may not stand in a comment or a string. -/
def isControl (c : Char) : Bool := (c.toNat < 0x20 && c ≠ '\t') || c.toNat = 0x7F

def skipBlanks (text : List Char) : List Char := text.dropWhile isBlank

def takeLineEnd? : List Char → Option (List Char)
  | '\n' :: rest => some rest
  | '\r' :: '\n' :: rest => some rest
  | _ => none

/-- Skips a comment, up to the end of its line, if one starts here. -/
def skipComment : List Char → List Char
  | '#' :: rest => rest.dropWhile fun c => !isControl c
  | text => text

/-- Skips blanks and a comment and takes the end of the line; the end of the text is one too. -/
def endLine? (text : List Char) : Option (List Char) :=
  match skipComment (skipBlanks text) with
  | [] => some []
  | text => takeLineEnd? text

/-- Skips blanks, comments and line ends, from inside a comment or not. -/
def skipLines : Bool → List Char → List Char
  | _, [] => []
  | _, '\n' :: rest => skipLines false rest
  | _, '\r' :: '\n' :: rest => skipLines false rest
  | true, c :: rest => if isControl c then c :: rest else skipLines true rest
  | false, c :: rest =>
    if isBlank c then skipLines false rest
    else if c = '#' then skipLines true rest
    else c :: rest

def skipSpace (text : List Char) : List Char := skipLines false text

end ImplementorIndex.Toml
