import ImplementorIndex.Json.Value

/-!
# Writing JSON values

The compact form of a value, without white space. In strings the quote, the backslash and the
controls below the space are escaped, the controls by a letter where JSON has one and by four
hexadecimal digits otherwise; every other character stands for itself.
-/

namespace ImplementorIndex.Json

def hexDigit (n : Nat) : Char := if n < 10 then Char.ofNat (48 + n) else Char.ofNat (87 + n)

/-- One character inside a string. -/
def writeChar (c : Char) : List Char :=
  match c with
  | '"' => ['\\', '"']
  | '\\' => ['\\', '\\']
  | '\x08' => ['\\', 'b']
  | '\x0c' => ['\\', 'f']
  | '\n' => ['\\', 'n']
  | '\r' => ['\\', 'r']
  | '\t' => ['\\', 't']
  | c =>
    if c.toNat < 0x20 then ['\\', 'u', '0', '0', hexDigit (c.toNat / 16), hexDigit (c.toNat % 16)]
    else [c]

def writeString (text : String) : List Char := '"' :: text.toList.flatMap writeChar ++ ['"']

def joinCommas : List (List Char) → List Char
  | [] => []
  | [piece] => piece
  | piece :: rest => piece ++ ',' :: joinCommas rest

mutual

/-- The compact form of a value. -/
def Value.write : Value → List Char
  | .null => ['n', 'u', 'l', 'l']
  | .bool true => ['t', 'r', 'u', 'e']
  | .bool false => ['f', 'a', 'l', 's', 'e']
  | .number value => value.write
  | .string text => writeString text
  | .array items => '[' :: joinCommas (writeItems items) ++ [']']
  | .object members => '\x7b' :: joinCommas (writeMembers members) ++ ['\x7d']

def writeItems : List Value → List (List Char)
  | [] => []
  | item :: rest => item.write :: writeItems rest

def writeMembers : List (String × Value) → List (List Char)
  | [] => []
  | (name, value) :: rest => (writeString name ++ ':' :: value.write) :: writeMembers rest

end

end ImplementorIndex.Json
