import ImplementorIndex.Toml.Layout
import ImplementorIndex.Toml.Moment
import ImplementorIndex.Toml.Value

/-!
# Numbers, moments and truth values of TOML

These stand in a text without quotes, and reach as far as words and points do; words are part of one
value also when blanks separate them. A number is recognised by how it starts and by its underscores
and is kept as it is written: nothing here computes its value. So an integer whose first digits are
followed by an underscore may hold any other characters further on.
-/

namespace ImplementorIndex.Toml

/-- A character that ends a word. -/
def isMark (c : Char) : Bool :=
  isBlank c || c = '.' || c = '=' || c = ',' || c = '[' || c = ']' || c = '\x7b' || c = '\x7d' ||
    c = '#' || c = '\r' || c = '\n'

/-- A word starts here. Quotes start a string instead. -/
def startsWord : List Char → Bool
  | [] => false
  | c :: _ => !isMark c && c ≠ '"' && c ≠ '\x27'

/-- Cuts words and points off the front of a text, with the blanks between words. -/
def cutBare : List Char → List Char × List Char
  | [] => ([], [])
  | c :: rest =>
    if !isMark c || c = '.' || (isBlank c && startsWord (skipBlanks rest)) then
      let cut := cutBare rest
      (c :: cut.1, cut.2)
    else ([], c :: rest)

def dropSign : List Char → List Char
  | '+' :: rest => rest
  | '-' :: rest => rest
  | text => text

def isHexDigit (c : Char) : Bool := c.isDigit || ('a' ≤ c.toLower && c.toLower ≤ 'f')

/-- Behind each underscore stands a digit, and before it a digit too, where `before` says so of what
stands before the text. -/
def separates (isDigit : Char → Bool) : Bool → List Char → Bool
  | _, [] => true
  | before, '_' :: rest =>
    match rest with
    | [] => false
    | c :: rest => before && isDigit c && separates isDigit true rest
  | _, c :: rest => separates isDigit (isDigit c) rest

/-- Underscores stand between digits only. -/
def isSeparated (isDigit : Char → Bool) (text : List Char) : Bool := separates isDigit false text

def isDigitOrBar (c : Char) : Bool := c.isDigit || c = '_'

/-- The digits and underscores in front of a text hold a digit. -/
def hasDigits (text : List Char) : Bool := (text.takeWhile isDigitOrBar).any Char.isDigit

/-- No zero stands in front of other digits. -/
def isPlain (text : List Char) : Bool :=
  text.head? ≠ some '0' || ((text.takeWhile isDigitOrBar).filter Char.isDigit).length = 1

def isExponent : List Char → Bool
  | [] => true
  | c :: rest =>
    (c = 'e' || c = 'E') && hasDigits (dropSign rest) &&
      ((dropSign rest).dropWhile isDigitOrBar).isEmpty

def isFloat (text : List Char) : Bool :=
  hasDigits text && isPlain text &&
    match text.dropWhile isDigitOrBar with
    | [] => false
    | '.' :: rest => hasDigits rest && isExponent (rest.dropWhile isDigitOrBar)
    | rest => isExponent rest

/-- A decimal integer by its start: digits without a zero in front, and then either nothing or an
underscore and whatever is no blank, point or exponent. -/
def isInteger (text : List Char) : Bool :=
  match text.dropWhile Char.isDigit with
  | [] => text ≠ [] && isPlain text
  | c :: rest =>
    c = '_' && text.head? ≠ some '0' &&
      rest.all fun c => c ≠ ' ' && c ≠ '.' && c ≠ 'e' && c ≠ 'E'

/-- An integer to another base. The digits may be missing. -/
def isRadixed : List Char → Bool
  | '0' :: 'x' :: rest => rest.all (fun c => isHexDigit c || c = '_') && isSeparated isHexDigit rest
  | '0' :: 'o' :: rest =>
    rest.all (fun c => ('0' ≤ c && c ≤ '7') || c = '_') && isSeparated isHexDigit rest
  | '0' :: 'b' :: rest =>
    rest.all (fun c => c = '0' || c = '1' || c = '_') && isSeparated isHexDigit rest
  | _ => false

def isNumber (text : List Char) : Bool :=
  let body := dropSign text
  body = ['i', 'n', 'f'] || body = ['n', 'a', 'n'] || isRadixed text ||
    (isFloat body && isSeparated Char.isDigit text) ||
    (isInteger body && isSeparated isHexDigit text)

def bareValue? (text : List Char) : Option Value :=
  if text = ['t', 'r', 'u', 'e'] then some (.bool true)
  else if text = ['f', 'a', 'l', 's', 'e'] then some (.bool false)
  else if isNumber text then some (.number (String.ofList text))
  else if isMoment text then some (.moment (String.ofList text))
  else none

def readScalar (text : List Char) : Option (Value × List Char) :=
  let cut := cutBare text
  (bareValue? cut.1).map fun value => (value, cut.2)

end ImplementorIndex.Toml
