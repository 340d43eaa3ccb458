import ImplementorIndex.Text.Blank
import ImplementorIndex.Text.Word

/-!
# Pieces of a text

How the functions that trim a text and look for words in it cut the text into pieces, and what the
inside of a string between quotes looks like.
-/

namespace ImplementorIndex.Text

def Blank (text : List Char) : Prop := ∀ c ∈ text, isBlank c = true

theorem blank_nil : Blank [] := by
  intro c hm
  simp at hm

theorem blank_space : Blank [' '] := by
  intro c hm
  obtain rfl := List.mem_singleton.mp hm
  decide

theorem trimStart_append {blanks : List Char} (h : Blank blanks) (text : List Char) :
    trimStart (blanks ++ text) = trimStart text :=
  List.dropWhile_append_of_pos h

theorem exists_trimStart (text : List Char) :
    ∃ blanks, Blank blanks ∧ text = blanks ++ trimStart text :=
  ⟨text.takeWhile isBlank, List.all_eq_true.mp List.all_takeWhile,
    (List.takeWhile_append_dropWhile).symm⟩

theorem exists_trimEnd (text : List Char) :
    ∃ blanks, Blank blanks ∧ text = trimEnd text ++ blanks := by
  obtain ⟨blanks, h, split⟩ := exists_trimStart text.reverse
  refine ⟨blanks.reverse, ?_, ?_⟩
  · intro c hm
    exact h c (List.mem_reverse.mp hm)
  · have turned := congrArg List.reverse split
    rwa [List.reverse_reverse, List.reverse_append] at turned

theorem trimEnd_concat (text : List Char) {c : Char} (visible : isBlank c = false) :
    trimEnd (text ++ [c]) = text ++ [c] := by
  simp [trimEnd, visible]

theorem trimEnd_append_cons {c : Char} (visible : isBlank c = false) (front rest : List Char) :
    trimEnd (front ++ c :: rest) = front ++ c :: trimEnd rest := by
  rw [trimEnd, trimEnd, List.reverse_append, List.reverse_cons, List.append_assoc,
    List.singleton_append, List.dropWhile_append]
  split
  · rename_i empty
    simp [List.isEmpty_iff.mp empty, visible]
  · simp

theorem trimEnd_of_visible {text : List Char} (ends : ∀ c, text.getLast? = some c → isBlank c = false) :
    trimEnd text = text := by
  rcases List.eq_nil_or_concat text with rfl | ⟨front, last, rfl⟩
  · rfl
  · rw [List.concat_eq_append] at ends ⊢
    exact trimEnd_concat front (ends last (by simp))

theorem visible_of_trimEnd {text : List Char} {c : Char} (h : (trimEnd text).getLast? = some c) :
    isBlank c = false := by
  rw [trimEnd, List.getLast?_reverse] at h
  have visible := List.head?_dropWhile_not isBlank text.reverse
  rw [h] at visible
  simpa using visible

theorem trimEnd_append (text : List Char) {blanks : List Char} (h : Blank blanks) :
    trimEnd (text ++ blanks) = trimEnd text := by
  have turned : ∀ c ∈ blanks.reverse, isBlank c = true := by
    intro c member
    exact h c (List.mem_reverse.mp member)
  rw [trimEnd, List.reverse_append, List.dropWhile_append_of_pos turned, trimEnd]

theorem trimEnd_blank {text : List Char} (h : Blank text) : trimEnd text = [] :=
  trimEnd_append [] h

theorem exists_trim (text : List Char) :
    ∃ front back, Blank front ∧ Blank back ∧ text = front ++ (trim text ++ back) := by
  obtain ⟨front, hf, split⟩ := exists_trimStart text
  obtain ⟨back, hb, rest⟩ := exists_trimEnd (trimStart text)
  exact ⟨front, back, hf, hb, by rw [trim, ← rest, ← split]⟩

theorem trim_eq_nil_iff {text : List Char} : trim text = [] ↔ Blank text := by
  constructor
  · intro empty
    obtain ⟨front, back, blankFront, blankBack, split⟩ := exists_trim text
    rw [empty] at split
    intro c member
    rw [split] at member
    rcases List.mem_append.mp member with member | member
    · exact blankFront c member
    · exact blankBack c member
  · intro blank
    have trimmed := trimStart_append blank []
    rw [List.append_nil] at trimmed
    rw [trim, trimmed]
    rfl

theorem containsWord_iff {word text : List Char} : containsWord word text = true ↔ word <:+: text := by
  induction text with
  | nil => simp [containsWord, List.infix_nil]
  | cons c text ih =>
    rw [containsWord, Bool.or_eq_true, ih, List.infix_cons_iff, Option.isSome_iff_exists]
    simp only [stripWord?_eq_some_iff]
    constructor
    · rintro (⟨rest, split⟩ | later)
      · exact .inl ⟨rest, split.symm⟩
      · exact .inr later
    · rintro (⟨rest, split⟩ | later)
      · exact .inl ⟨rest, split.symm⟩
      · exact .inr later

/-- The inside of a string between quotes: a backslash hides the character after it, and no quote
stands in the open. -/
inductive Guarded (quote : Char) : List Char → Prop where
  | nil : Guarded quote []
  | escaped {c : Char} {rest : List Char} (h : Guarded quote rest) : Guarded quote ('\\' :: c :: rest)
  | plain {c : Char} {rest : List Char} (ne : c ≠ quote) (still : c ≠ '\\') (h : Guarded quote rest) :
    Guarded quote (c :: rest)

theorem Guarded.append {quote : Char} {text more : List Char} (h : Guarded quote text)
    (h' : Guarded quote more) : Guarded quote (text ++ more) := by
  induction h with
  | nil => exact h'
  | escaped _ ih => exact .escaped ih
  | plain ne still _ ih => exact .plain ne still ih

end ImplementorIndex.Text
