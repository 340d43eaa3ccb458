import ImplementorIndex.Json.Token
import ImplementorIndex.Text.Word
import ImplementorIndex.Toml.Layout

/-!
# Strings of TOML

Four kinds of strings: with escapes or without, on one line or on several. A string on several lines
drops a line end right behind its opening quotes, may hold up to two quotes in a row, and, if it
knows escapes, drops the space around a line end behind a backslash. Controls stand in no string,
line ends in none that is on one line.
-/

namespace ImplementorIndex.Toml

open Json (hexValue?)

def readHex : Nat → Nat → List Char → Option (Nat × List Char)
  | 0, value, text => some (value, text)
  | _ + 1, _, [] => none
  | count + 1, value, c :: text => do readHex count (16 * value + (← hexValue? c)) text

def charOfCode? (code : Nat) : Option Char :=
  if code < 0xD800 || (0xDFFF < code && code < 0x110000) then some (Char.ofNat code) else none

/-- Reads a character given by so many hexadecimal digits. -/
def readCode (count : Nat) (text : List Char) : Option (Char × List Char) := do
  let (code, rest) ← readHex count 0 text
  let c ← charOfCode? code
  pure (c, rest)

def readEscape : List Char → Option (Char × List Char)
  | 'b' :: rest => some ('\x08', rest)
  | 't' :: rest => some ('\t', rest)
  | 'n' :: rest => some ('\n', rest)
  | 'f' :: rest => some ('\x0c', rest)
  | 'r' :: rest => some ('\r', rest)
  | 'e' :: rest => some ('\x1b', rest)
  | '"' :: rest => some ('"', rest)
  | '\\' :: rest => some ('\\', rest)
  | 'x' :: rest => readCode 2 rest
  | 'u' :: rest => readCode 4 rest
  | 'U' :: rest => readCode 8 rest
  | _ => none

/-- Reads a string on one line, up to its closing quote, which is taken too. -/
def readLine (quote : Char) (escapes : Bool) : Nat → List Char → Option (List Char × List Char)
  | 0, _ => none
  | _, [] => none
  | most + 1, c :: rest =>
    if c = quote then some ([], rest)
    else if escapes && c = '\\' then do
      let (found, rest) ← readEscape rest
      let (content, rest) ← readLine quote escapes most rest
      pure (found :: content, rest)
    else if isControl c then none
    else do
      let (content, rest) ← readLine quote escapes most rest
      pure (c :: content, rest)

def skipGap : List Char → List Char
  | [] => []
  | '\n' :: rest => skipGap rest
  | '\r' :: '\n' :: rest => skipGap rest
  | c :: rest => if isBlank c then skipGap rest else c :: rest

/-- A backslash at the end of a line: the text behind the line end and all space after it. -/
def joinLines? (text : List Char) : Option (List Char) :=
  (takeLineEnd? (skipBlanks text)).map skipGap

def countQuotes (quote : Char) (text : List Char) : Nat := (text.takeWhile (· = quote)).length

/-- Reads a string on several lines, up to its closing quotes, which are taken too. -/
def readLines (quote : Char) (escapes : Bool) : Nat → List Char → Option (List Char × List Char)
  | 0, _ => none
  | _, [] => none
  | most + 1, c :: rest =>
    let text := c :: rest
    let quotes := countQuotes quote text
    if 3 ≤ quotes then
      if quotes ≤ 5 then some (List.replicate (quotes - 3) quote, text.drop quotes) else none
    else if escapes && c = '\\' then
      match joinLines? rest with
      | some rest => readLines quote escapes most rest
      | none => do
        let (found, rest) ← readEscape rest
        let (content, rest) ← readLines quote escapes most rest
        pure (found :: content, rest)
    else if c = '\n' then do
      let (content, rest) ← readLines quote escapes most rest
      pure (c :: content, rest)
    else if c = '\r' then
      match rest with
      | '\n' :: rest => do
        let (content, rest) ← readLines quote escapes most rest
        pure ('\r' :: '\n' :: content, rest)
      | _ => none
    else if isControl c then none
    else do
      let (content, rest) ← readLines quote escapes most rest
      pure (c :: content, rest)

/-- Reads a string of any kind. Only quotes with escapes are double. -/
def readString (text : List Char) : Option (String × List Char) := do
  let most := text.length + 1
  let (quote, escapes) ← match text with
    | '"' :: _ => some ('"', true)
    | '\x27' :: _ => some ('\x27', false)
    | _ => none
  let (content, rest) ←
    match Text.stripWord? [quote, quote, quote] text with
    | some rest => readLines quote escapes most ((takeLineEnd? rest).getD rest)
    | none => readLine quote escapes most (text.drop 1)
  pure (String.ofList content, rest)

def readQuotedKey (text : List Char) : Option (String × List Char) := do
  let most := text.length + 1
  let (content, rest) ← match text with
    | '"' :: rest => readLine '"' true most rest
    | '\x27' :: rest => readLine '\x27' false most rest
    | _ => none
  pure (String.ofList content, rest)

end ImplementorIndex.Toml
