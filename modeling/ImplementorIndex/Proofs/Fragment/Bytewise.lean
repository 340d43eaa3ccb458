import ImplementorIndex.Proofs.Fragment.Grammar
import ImplementorIndex.Proofs.Text.Bytes

/-!
# Scanners that work on bytes

A script may also be scanned on the bytes that spell it. The scanners of this module keep an index into
the bytes: they look at single bytes, step over two of them behind a backslash, jump by the results of a
search and cut the text where they stop. Each of these may fault, and so may a round of a loop that
consumes nothing.
-/

namespace ImplementorIndex.Fragment

def splitLiteral (text : List Char) : Except Malformed (List Char × List Char) :=
  match Text.trimStart text with
  | '"' :: rest =>
    match closeLiteral false rest with
    | none => .error .keyUnterminated
    | some (content, rest) => .ok (literalOf content, rest)
  | _ => .error .keyNotLiteral

def readName (literal : List Char) : Except Malformed Namespace :=
  match Json.read literal with
  | some (.string name) => .ok ⟨name⟩
  | _ => .error (.keyInvalid (String.ofList literal))

theorem readKey_eq (text : List Char) :
    readKey text = (splitLiteral text).bind fun (literal, rest) =>
      (readName literal).bind fun name => .ok (name, rest) := by
  unfold readKey splitLiteral
  generalize Text.trimStart text = inner
  cases inner with
  | nil => rfl
  | cons c rest =>
    by_cases quote : c = '"'
    · subst quote
      cases closed : closeLiteral false rest with
      | none => simp only [closed, Except.bind]
      | some parts =>
        simp only [closed, Except.bind, readName]
        cases Json.read (literalOf parts.1) with
        | none => rfl
        | some value => cases value <;> rfl
    · simp [quote, Except.bind]

end ImplementorIndex.Fragment

namespace ImplementorIndex.Fragment.Bytewise

open Text (Fault Foreign bytesFrom byteAt cut utf8 findWord size)

section Scanners

/-- A byte that may be part of a name in a script, or that selects a member. -/
def continuesName (b : UInt8) : Bool :=
  ('0'.toUInt8 ≤ b && b ≤ '9'.toUInt8) || ('A'.toUInt8 ≤ b && b ≤ 'Z'.toUInt8) ||
    ('a'.toUInt8 ≤ b && b ≤ 'z'.toUInt8) || b = '_'.toUInt8 || b = '$'.toUInt8 || b = '.'.toUInt8

/-- The name of the table may start at an index: the byte before it does not make the name longer. -/
def mayStart (bytes : List UInt8) : Nat → Except Fault Bool
  | 0 => .ok true
  | i + 1 => (byteAt bytes i).map fun b => !continuesName b

/-- The index of the quote that closes a string. Behind a backslash two bytes are stepped over, so the
index may come to stand inside a character, or beyond the end. -/
def closeString (bytes : List UInt8) (quote : UInt8) (i : Nat) : Except Fault Nat :=
  if i < bytes.length then do
    let b ← byteAt bytes i
    if b = quote then return i
    closeString bytes quote (if b = '\\'.toUInt8 then i + 2 else i + 1)
  else return i
termination_by bytes.length - i
decreasing_by split <;> omega

inductive Round where
  /-- the search goes on at an index -/
  | onward (next : Nat)
  /-- an assignment starts, and this stands behind its start -/
  | found (rest : List Char)
  /-- there is none -/
  | never

/-- The end of a comment is looked for from an index on, and a number of bytes behind it is passed. -/
def passComment (text mark : List Char) (i past : Nat) : Except Fault Round := do
  let (_, after) ← cut text i
  match findWord mark after with
  | some width => return .onward (i + width + past)
  | none => return .never

def tryStart (text : List Char) (i : Nat) : Except Fault Round := do
  if (utf8 assignmentStart).isPrefixOf (← bytesFrom (utf8 text) i) then
    if ← mayStart (utf8 text) i then
      let (_, after) ← cut text (i + size assignmentStart)
      return .found after
  return .onward (i + 1)

/-- One round of the search for an assignment, at an index. -/
def round (text : List Char) (i : Nat) : Except Fault Round := do
  let b ← byteAt (utf8 text) i
  let next := (utf8 text)[i + 1]?
  if b = '/'.toUInt8 ∧ next = some '/'.toUInt8 then passComment text ['\n'] i 0
  else if b = '/'.toUInt8 ∧ next = some '*'.toUInt8 then passComment text ['*', '/'] (i + 2) 2
  else if b = '"'.toUInt8 ∨ b = '\x27'.toUInt8 then
    return .onward ((← closeString (utf8 text) b (i + 1)) + 1)
  else tryStart text i

def nextAssignment (text : List Char) (i : Nat) : Except Fault (Option (List Char)) :=
  if i < size text then
    match round text i with
    | .error fault => .error fault
    | .ok .never => .ok none
    | .ok (.found rest) => .ok (some rest)
    | .ok (.onward next) => if i < next then nextAssignment text next else .error .stalled
  else .ok none
termination_by size text - i

def closeLiteral (escaped : Bool) (i : Nat) : List UInt8 → Option Nat
  | [] => none
  | b :: rest =>
    if escaped then closeLiteral false (i + 1) rest
    else if b = '\\'.toUInt8 then closeLiteral true (i + 1) rest
    else if b = '"'.toUInt8 then some i
    else closeLiteral false (i + 1) rest

def splitLiteral (text : List Char) : Except Fault (Except Malformed (List Char × List Char)) :=
  let text := Text.trimStart text
  if text.head? = some '"' then
    match closeLiteral false 1 ((utf8 text).drop 1) with
    | none => .ok (.error .keyUnterminated)
    | some i => (cut text (i + 1)).map .ok
  else .ok (.error .keyNotLiteral)

inductive Stop where
  /-- at the byte with this index, which is not part of it -/
  | before (i : Nat)
  /-- at the byte with this index, which is dropped -/
  | at (i : Nat)
  /-- with the text -/
  | whole
  /-- not at all -/
  | never

def decrement : Nat → Except Fault Nat
  | 0 => .error .underflow
  | depth + 1 => .ok depth

def stop (depth : Nat) (inString escaped : Bool) (i : Nat) : List UInt8 → Except Fault Stop
  | [] => .ok (if inString || 0 < depth then .never else .whole)
  | b :: rest =>
    if inString then
      if escaped then stop depth true false (i + 1) rest
      else if b = '\\'.toUInt8 then stop depth true true (i + 1) rest
      else if b = '"'.toUInt8 then stop depth false false (i + 1) rest
      else stop depth true false (i + 1) rest
    else if b = '"'.toUInt8 then stop depth true escaped (i + 1) rest
    else if b = '['.toUInt8 ∨ b = '\x7b'.toUInt8 ∨ b = '('.toUInt8 then
      stop (depth + 1) false escaped (i + 1) rest
    else if b = ']'.toUInt8 ∨ b = '\x7d'.toUInt8 ∨ b = ')'.toUInt8 then
      if depth = 0 then .ok (.before i)
      else do stop (← decrement depth) false escaped (i + 1) rest
    else if b = ';'.toUInt8 ∧ depth = 0 then .ok (.at i)
    else stop depth false escaped (i + 1) rest

/-- The two parts of a text around the end of an expression. -/
def splitAt (text : List Char) : Stop → Except Fault (Option (List Char × List Char))
  | .before i => (cut text i).map some
  | .at i => do
    let (expression, _) ← cut text i
    let (_, rest) ← cut text (i + 1)
    return some (expression, rest)
  | .whole => .ok (some (text, []))
  | .never => .ok none

def splitExpression (text : List Char) : Except Fault (Option (List Char × List Char)) := do
  splitAt text (← stop 0 false false 0 (utf8 text))

end Scanners

section Readers

def readKey (text : List Char) : ExceptT Malformed (Except Fault) (Namespace × List Char) := do
  let (literal, rest) ← ExceptT.mk (splitLiteral text)
  let name ← ExceptT.mk (.ok (readName literal))
  return (name, rest)

def readAssignment (text : List Char) :
    ExceptT Malformed (Except Fault) ((Namespace × List Entry) × List Char) := do
  let (name, text) ← readKey text
  match stripAssign? text with
  | none => throw (.assignmentExpected name)
  | some text =>
    match ← (splitExpression text : Except Fault _) with
    | none => throw .listUnterminated
    | some (expression, rest) =>
      let value ← ExceptT.mk (.ok (readListLiteral name expression))
      let entries ← ExceptT.mk (.ok (entriesOf name value))
      return ((name, entries), rest)

def readAssignments (text : List Char) :
    Except Fault (Except Malformed (List (Namespace × List Entry))) :=
  match nextAssignment text 0 with
  | .error fault => .error fault
  | .ok none => .ok (.ok [])
  | .ok (some after) =>
    match readAssignment after with
    | .error fault => .error fault
    | .ok (.error problem) => .ok (.error problem)
    | .ok (.ok (row, rest)) =>
      if size rest < size text then (readAssignments rest).map (·.map (row :: ·))
      else .error .stalled
termination_by size text

def readScript (text : List Char) : Except Fault (Except Malformed (List (Namespace × List Entry))) :=
  if Text.containsWord tableName text then readAssignments text else .ok (.error .noTable)

def decode (key : TraitKey) (text : String) : Except Fault (Except Malformed Payload) :=
  let text := stripMark text.toList
  (if isJsonForm text then .ok (readJson text) else readScript text).map
    (·.map (Payload.ofGroups key))

end Readers

end ImplementorIndex.Fragment.Bytewise
