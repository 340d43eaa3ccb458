import ImplementorIndex.Text.Visible

/-!
# Quoted display of a text

The form in which diagnostics show a text: between double quotes, with the quote, the backslash and
four controls written as two-character escapes, and every other character that is not visible
written by its code point. Nothing here reads the form back.
-/

namespace ImplementorIndex.Text

/-- The escape of a character by its code point, in lower-case hexadecimal without padding. -/
def codeEscape (c : Char) : List Char :=
  '\\' :: 'u' :: '\x7b' :: Nat.toDigits 16 c.toNat ++ ['\x7d']

/-- One character as it stands between the quotes. -/
def quotedChar (c : Char) : List Char :=
  match c with
  | '\x00' => ['\\', '0']
  | '\t' => ['\\', 't']
  | '\n' => ['\\', 'n']
  | '\r' => ['\\', 'r']
  | '"' => ['\\', '"']
  | '\\' => ['\\', '\\']
  | c => if isVisible c then [c] else codeEscape c

def quoted (text : String) : String :=
  String.ofList ('"' :: text.toList.flatMap quotedChar ++ ['"'])

end ImplementorIndex.Text
