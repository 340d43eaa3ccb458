/-!
# Words at the front of a text

Taking a given word off the front or the back of a text, and looking for it anywhere inside.
-/

namespace ImplementorIndex.Text

def stripWord? : List Char → List Char → Option (List Char)
  | [], text => some text
  | _ :: _, [] => none
  | w :: word, c :: text => if w = c then stripWord? word text else none

/-- Takes a word off the back of a text. -/
def stripEnding? (word text : List Char) : Option (List Char) :=
  (stripWord? word.reverse text.reverse).map List.reverse

def containsWord (word : List Char) : List Char → Bool
  | [] => word.isEmpty
  | c :: text => (stripWord? word (c :: text)).isSome || containsWord word text

/-- Taking a word off leaves what stood behind it. -/
theorem stripWord?_eq_some_iff {word text rest : List Char} :
    stripWord? word text = some rest ↔ text = word ++ rest := by
  induction word generalizing text with
  | nil => simp [stripWord?]
  | cons w word ih =>
    cases text with
    | nil => simp [stripWord?]
    | cons c text =>
      simp only [stripWord?, List.cons_append, List.cons.injEq]
      split
      · rename_i h
        simp [ih, h]
      · rename_i h
        have h' : ¬ c = w := fun e => h e.symm
        simp [h']

theorem stripEnding?_eq_some_iff {word text rest : List Char} :
    stripEnding? word text = some rest ↔ text = rest ++ word := by
  rw [stripEnding?, Option.map_eq_some_iff]
  constructor
  · rintro ⟨turned, found, rfl⟩
    rw [stripWord?_eq_some_iff] at found
    rw [← List.reverse_reverse text, found, List.reverse_append, List.reverse_reverse]
  · rintro rfl
    exact ⟨rest.reverse, stripWord?_eq_some_iff.mpr List.reverse_append, List.reverse_reverse rest⟩

theorem length_stripWord? {word text rest : List Char} (h : stripWord? word text = some rest) :
    text.length = word.length + rest.length := by
  rw [stripWord?_eq_some_iff.mp h, List.length_append]

end ImplementorIndex.Text
