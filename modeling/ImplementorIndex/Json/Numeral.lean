/-!
# Numerals of JSON

A numeral is kept as its digits: nothing in this library computes with numbers of a JSON text. A
numeral is admitted when double precision can hold it; one that is too large is refused, one that is
too small is not.
-/

namespace ImplementorIndex.Json

/-- A number as it is written. -/
structure Numeral where
  negative : Bool := false
  /-- the digits before the point -/
  whole : List Char
  /-- the digits after the point, empty when there is no point -/
  fraction : List Char := []
  /-- the sign (true for minus) and the digits of the exponent -/
  exponent : Option (Bool × List Char) := none
deriving DecidableEq

namespace Numeral

def digitValue (c : Char) : Nat := c.toNat - '0'.toNat

def digitsValue (digits : List Char) : Nat :=
  digits.foldl (fun value c => 10 * value + digitValue c) 0

/-- The leading digits that together still fit 64 bits, joined to a value, and the digits left. -/
def takeSignificant (value : Nat) : List Char → Nat × List Char
  | [] => (value, [])
  | c :: rest =>
    let next := 10 * value + digitValue c
    if next < 2 ^ 64 then takeSignificant next rest else (value, c :: rest)

/-- The significant digits and the power of ten that scales them. -/
def scaled (numeral : Numeral) : Nat × Int :=
  let (whole, dropped) := takeSignificant 0 numeral.whole
  let (value, unused) := takeSignificant whole numeral.fraction
  let shift : Int := match numeral.exponent with
    | none => 0
    | some (true, digits) => -(digitsValue digits : Int)
    | some (false, digits) => digitsValue digits
  (value, (dropped.length : Int) - ((numeral.fraction.length - unused.length : Nat) : Int) + shift)

/-- The numeral does not overflow double precision. -/
def inRange (numeral : Numeral) : Bool :=
  match numeral.scaled with
  | (0, _) => true
  | (value, .ofNat power) =>
    power ≤ 308 && !(Float.ofNat value * Float.ofScientific 1 false power).isInf
  | (_, .negSucc _) => true

def takeDigits (text : List Char) : List Char × List Char :=
  (text.takeWhile Char.isDigit, text.dropWhile Char.isDigit)

/-- Reads the digits before the point: a lone zero, or digits that do not start with zero. -/
def readWhole : List Char → Option (List Char × List Char)
  | [] => none
  | c :: rest =>
    if c = '0' then some (['0'], rest)
    else if c.isDigit then some (c :: (takeDigits rest).1, (takeDigits rest).2)
    else none

def readFraction : List Char → Option (List Char × List Char)
  | [] => some ([], [])
  | c :: rest =>
    if c = '.' then
      match takeDigits rest with
      | ([], _) => none
      | found => some found
    else some ([], c :: rest)

/-- Reads the optional sign of an exponent; true stands for minus. -/
def readSign : List Char → Bool × List Char
  | '-' :: rest => (true, rest)
  | '+' :: rest => (false, rest)
  | text => (false, text)

/-- Reads an exponent with at least one digit, if there is an exponent mark. -/
def readExponent : List Char → Option (Option (Bool × List Char) × List Char)
  | [] => some (none, [])
  | c :: rest =>
    if c = 'e' || c = 'E' then
      let (minus, digits) := readSign rest
      match takeDigits digits with
      | ([], _) => none
      | (found, rest) => some (some (minus, found), rest)
    else some (none, c :: rest)

def readUnsigned (negative : Bool) (text : List Char) : Option (Numeral × List Char) := do
  let (whole, text) ← readWhole text
  let (fraction, text) ← readFraction text
  let (exponent, text) ← readExponent text
  pure (⟨negative, whole, fraction, exponent⟩, text)

def read : List Char → Option (Numeral × List Char)
  | '-' :: rest => readUnsigned true rest
  | text => readUnsigned false text

def write (numeral : Numeral) : List Char :=
  let sign := if numeral.negative then ['-'] else []
  let fraction := if numeral.fraction.isEmpty then [] else '.' :: numeral.fraction
  let exponent := match numeral.exponent with
    | none => []
    | some (true, digits) => 'e' :: '-' :: digits
    | some (false, digits) => 'e' :: digits
  sign ++ numeral.whole ++ fraction ++ exponent

theorem length_takeDigits_le (text : List Char) : (takeDigits text).2.length ≤ text.length :=
  (List.dropWhile_sublist Char.isDigit).length_le

theorem length_readWhole {text digits rest : List Char} (h : readWhole text = some (digits, rest)) :
    rest.length < text.length := by
  cases text with
  | nil => simp [readWhole] at h
  | cons c tail =>
    have := length_takeDigits_le tail
    simp only [readWhole] at h
    split at h
    · simp only [Option.some.injEq, Prod.mk.injEq] at h
      simp [← h.2]
    · split at h
      · simp only [Option.some.injEq, Prod.mk.injEq] at h
        rw [← h.2, List.length_cons]
        omega
      · simp at h

theorem length_readFraction {text digits rest : List Char}
    (h : readFraction text = some (digits, rest)) : rest.length ≤ text.length := by
  cases text with
  | nil => simp_all [readFraction]
  | cons c tail =>
    have := length_takeDigits_le tail
    simp only [readFraction] at h
    split at h
    · split at h
      · simp at h
      · simp only [Option.some.injEq] at h
        rw [h] at this
        simp only [List.length_cons] at this ⊢
        omega
    · simp only [Option.some.injEq, Prod.mk.injEq] at h
      simp [← h.2]

theorem length_readSign_le (text : List Char) : (readSign text).2.length ≤ text.length := by
  unfold readSign
  split <;> simp

theorem length_readExponent {text rest : List Char} {found : Option (Bool × List Char)}
    (h : readExponent text = some (found, rest)) : rest.length ≤ text.length := by
  cases text with
  | nil => simp_all [readExponent]
  | cons c tail =>
    have hs := length_readSign_le tail
    have hd := length_takeDigits_le (readSign tail).2
    simp only [readExponent] at h
    split at h
    · split at h
      · simp at h
      · rename_i heq
        simp only [Option.some.injEq, Prod.mk.injEq] at h
        rw [heq] at hd
        simp only [List.length_cons, ← h.2] at hd ⊢
        omega
    · simp only [Option.some.injEq, Prod.mk.injEq] at h
      simp [← h.2]

theorem length_readUnsigned {negative : Bool} {text rest : List Char} {numeral : Numeral}
    (h : readUnsigned negative text = some (numeral, rest)) : rest.length < text.length := by
  simp only [readUnsigned, Option.bind_eq_bind, Option.bind_eq_some_iff, Prod.exists] at h
  obtain ⟨whole, afterWhole, hw, fraction, afterFraction, hf, exponent, afterExponent, he, h⟩ := h
  simp only [Option.pure_def, Option.some.injEq, Prod.mk.injEq] at h
  have h1 := length_readWhole hw
  have h2 := length_readFraction hf
  have h3 := length_readExponent he
  rw [← h.2]
  omega

/-- Reading a numeral takes at least one character. -/
theorem length_read {text rest : List Char} {numeral : Numeral}
    (h : read text = some (numeral, rest)) : rest.length < text.length := by
  unfold read at h
  split at h
  · have := length_readUnsigned h
    simp only [List.length_cons]
    omega
  · exact length_readUnsigned h

end Numeral

end ImplementorIndex.Json
