import ImplementorIndex.Text.CodeRange

/-!
# Blank characters

The characters with the Unicode property White_Space, and the functions that strip them from the
ends of a text. Zero-width characters are not blank.
-/

namespace ImplementorIndex.Text

def blankRanges : List CodeRange :=
  [(0x09, 0x0D), (0x20, 0x20), (0x85, 0x85), (0xA0, 0xA0), (0x1680, 0x1680), (0x2000, 0x200A),
   (0x2028, 0x2029), (0x202F, 0x202F), (0x205F, 0x205F), (0x3000, 0x3000)]

/-- A character is blank when it has the property White_Space. -/
def isBlank (c : Char) : Bool := inRanges blankRanges c.toNat

def trimStart (text : List Char) : List Char := text.dropWhile isBlank

def trimEnd (text : List Char) : List Char := (text.reverse.dropWhile isBlank).reverse

def trim (text : List Char) : List Char := trimEnd (trimStart text)

@[simp] theorem trimStart_nil : trimStart [] = [] := rfl

@[simp] theorem trimEnd_nil : trimEnd [] = [] := rfl

theorem trimStart_cons (c : Char) (text : List Char) :
    trimStart (c :: text) = if isBlank c then trimStart text else c :: text := by
  simp [trimStart, List.dropWhile_cons]

/-- What trimming the front leaves is never longer than the text. -/
theorem length_trimStart_le (text : List Char) : (trimStart text).length ≤ text.length :=
  (List.dropWhile_sublist isBlank).length_le

end ImplementorIndex.Text
