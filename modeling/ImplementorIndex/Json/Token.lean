import ImplementorIndex.Json.Numeral
import ImplementorIndex.Text.Word

/-!
# Tokens of JSON

The words of a JSON text: brackets, separators, the three literals, numerals and strings. `tokens`
cuts a text into its words and drops the white space between them, of which JSON knows four
characters. A text that holds anything else has no tokens.
-/

namespace ImplementorIndex.Json

open Text (stripWord? length_stripWord?)

inductive Token where
  | openArray
  | closeArray
  | openObject
  | closeObject
  | colon
  | comma
  | null
  | bool (value : Bool)
  | number (value : Numeral)
  | string (text : String)
deriving DecidableEq

def isSpace (c : Char) : Bool := c = ' ' || c = '\t' || c = '\n' || c = '\r'

def hexValue? (c : Char) : Option Nat :=
  if '0' ≤ c ∧ c ≤ '9' then some (c.toNat - 48)
  else if 'a' ≤ c ∧ c ≤ 'f' then some (c.toNat - 87)
  else if 'A' ≤ c ∧ c ≤ 'F' then some (c.toNat - 55)
  else none

def readHex4 : List Char → Option (Nat × List Char)
  | a :: b :: c :: d :: rest => do
    let a ← hexValue? a
    let b ← hexValue? b
    let c ← hexValue? c
    let d ← hexValue? d
    pure (((16 * a + b) * 16 + c) * 16 + d, rest)
  | _ => none

def isLeading (unit : Nat) : Bool := 0xD800 ≤ unit && unit ≤ 0xDBFF

def isTrailing (unit : Nat) : Bool := 0xDC00 ≤ unit && unit ≤ 0xDFFF

/-- Reads the code of a character after the mark of a code escape. Characters outside the first
plane are written as a pair of units; half a pair stands for nothing. -/
def readCode (text : List Char) : Option (Char × List Char) := do
  let (unit, rest) ← readHex4 text
  if isTrailing unit then none
  else if isLeading unit then
    match rest with
    | '\\' :: 'u' :: rest =>
      let (second, rest) ← readHex4 rest
      if isTrailing second then
        pure (Char.ofNat (0x10000 + (unit - 0xD800) * 0x400 + (second - 0xDC00)), rest)
      else none
    | _ => none
  else pure (Char.ofNat unit, rest)

/-- The character that a two-character escape stands for, by its letter. -/
def escapeLetter? : Char → Option Char
  | '"' => some '"'
  | '\\' => some '\\'
  | '/' => some '/'
  | 'b' => some '\x08'
  | 'f' => some '\x0c'
  | 'n' => some '\n'
  | 'r' => some '\r'
  | 't' => some '\t'
  | _ => none

/-- Reads the rest of an escape after its backslash. -/
def readEscape : List Char → Option (Char × List Char)
  | [] => none
  | c :: rest => if c = 'u' then readCode rest else (escapeLetter? c).map fun found => (found, rest)

theorem length_readHex4 {text rest : List Char} {unit : Nat} (h : readHex4 text = some (unit, rest)) :
    rest.length < text.length := by
  unfold readHex4 at h
  split at h
  · simp only [Option.bind_eq_bind, Option.bind_eq_some_iff, Option.pure_def, Option.some.injEq,
      Prod.mk.injEq] at h
    obtain ⟨_, _, _, _, _, _, _, _, _, h⟩ := h
    simp only [List.length_cons, ← h]
    omega
  · simp at h

theorem length_readCode {text rest : List Char} {c : Char} (h : readCode text = some (c, rest)) :
    rest.length < text.length := by
  simp only [readCode, Option.bind_eq_bind, Option.bind_eq_some_iff, Prod.exists] at h
  obtain ⟨unit, after, hu, h⟩ := h
  have h1 := length_readHex4 hu
  split at h
  · simp at h
  · split at h
    · split at h
      · simp only [Option.bind_eq_some_iff, Prod.exists] at h
        obtain ⟨second, last, hs, h⟩ := h
        have h2 := length_readHex4 hs
        split at h
        · simp only [Option.pure_def, Option.some.injEq, Prod.mk.injEq] at h
          simp only [List.length_cons] at h1
          rw [← h.2]
          omega
        · simp at h
      · simp at h
    · simp only [Option.pure_def, Option.some.injEq, Prod.mk.injEq] at h
      rw [← h.2]
      exact h1

theorem length_readEscape {text rest : List Char} {c : Char} (h : readEscape text = some (c, rest)) :
    rest.length < text.length := by
  cases text with
  | nil => simp [readEscape] at h
  | cons d tail =>
    simp only [readEscape] at h
    split at h
    · have := length_readCode h
      simp only [List.length_cons]
      omega
    · simp only [Option.map_eq_some_iff, Prod.mk.injEq] at h
      obtain ⟨_, _, _, h⟩ := h
      simp [← h]

/-- Reads the characters of a string up to its closing quote, which is taken too. Controls must be
escaped. -/
def readString (text : List Char) : Option (List Char × List Char) :=
  match text with
  | [] => none
  | c :: rest =>
    if c = '"' then some ([], rest)
    else if c = '\\' then
      match _h : readEscape rest with
      | none => none
      | some (found, rest) => (readString rest).map fun read => (found :: read.1, read.2)
    else if c.toNat < 0x20 then none
    else (readString rest).map fun read => (c :: read.1, read.2)
termination_by text.length
decreasing_by
  · have := length_readEscape _h
    simp only [List.length_cons]
    omega
  · simp

theorem length_readString {text content rest : List Char}
    (h : readString text = some (content, rest)) : rest.length < text.length := by
  fun_induction readString text generalizing content rest with
  | case1 => simp at h
  | case2 rest' => simp_all
  | case3 => simp at h
  | case4 tail found after he _ ih =>
    simp only [Option.map_eq_some_iff, Prod.mk.injEq] at h
    obtain ⟨read, hr, _, h⟩ := h
    have h1 := length_readEscape he
    have h2 := @ih read.1 read.2 hr
    simp only [List.length_cons, ← h]
    omega
  | case5 => simp at h
  | case6 c tail _ _ _ ih =>
    simp only [Option.map_eq_some_iff, Prod.mk.injEq] at h
    obtain ⟨read, hr, _, h⟩ := h
    have h2 := @ih read.1 read.2 hr
    simp only [List.length_cons, ← h]
    omega

def readToken (c : Char) (rest : List Char) : Option (Token × List Char) :=
  match c with
  | '[' => some (.openArray, rest)
  | ']' => some (.closeArray, rest)
  | '\x7b' => some (.openObject, rest)
  | '\x7d' => some (.closeObject, rest)
  | ':' => some (.colon, rest)
  | ',' => some (.comma, rest)
  | 'n' => (stripWord? ['u', 'l', 'l'] rest).map fun rest => (.null, rest)
  | 't' => (stripWord? ['r', 'u', 'e'] rest).map fun rest => (.bool true, rest)
  | 'f' => (stripWord? ['a', 'l', 's', 'e'] rest).map fun rest => (.bool false, rest)
  | '"' => (readString rest).map fun read => (.string (String.ofList read.1), read.2)
  | c =>
    match Numeral.read (c :: rest) with
    | some (numeral, rest) => if numeral.inRange then some (.number numeral, rest) else none
    | none => none

theorem length_readToken {c : Char} {text rest : List Char} {token : Token}
    (h : readToken c text = some (token, rest)) : rest.length ≤ text.length := by
  unfold readToken at h
  split at h
  case h_7 | h_8 | h_9 =>
    simp only [Option.map_eq_some_iff, Prod.mk.injEq] at h
    obtain ⟨after, hw, _, h⟩ := h
    have := length_stripWord? hw
    rw [← h]
    omega
  case h_10 =>
    simp only [Option.map_eq_some_iff, Prod.mk.injEq] at h
    obtain ⟨read, hr, _, h⟩ := h
    have := @length_readString text read.1 read.2 hr
    rw [← h]
    omega
  case h_11 =>
    split at h
    · rename_i hn
      have := Numeral.length_read hn
      split at h
      · simp only [Option.some.injEq, Prod.mk.injEq] at h
        simp only [List.length_cons] at this
        rw [← h.2]
        omega
      · simp at h
    · simp at h
  all_goals
    simp only [Option.some.injEq, Prod.mk.injEq] at h
    simp [← h.2]

/-- Cuts a text into its tokens. -/
def tokens (text : List Char) : Option (List Token) :=
  match text with
  | [] => some []
  | c :: rest =>
    if isSpace c then tokens rest
    else
      match _h : readToken c rest with
      | none => none
      | some (token, rest) => (tokens rest).map (token :: ·)
termination_by text.length
decreasing_by
  · simp
  · have := length_readToken _h
    simp only [List.length_cons]
    omega

end ImplementorIndex.Json
