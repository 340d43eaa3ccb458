import ImplementorIndex.Proofs.Json.Exact

/-!
# Words of a JSON text

A text may be cut where a bracket, a comma or a colon stands for a token, two texts may be joined
there, and blank characters may be dropped at the end. The tokens of the pieces are the tokens of
the whole.
-/

namespace ImplementorIndex.Json

section Tokens

variable {text rest more : List Char} {c mark : Char} {token : Token} {list : List Token}

def Token.mark? : Token → Option Char
  | .openArray => some '['
  | .closeArray => some ']'
  | .openObject => some '\x7b'
  | .closeObject => some '\x7d'
  | .colon => some ':'
  | .comma => some ','
  | .null | .bool _ | .number _ | .string _ => none

theorem mark_spec (marked : token.mark? = some mark) :
    isSpace mark = false ∧ isNumeralChar mark = false ∧
      ∀ text, readToken mark text = some (token, text) := by
  cases token with
  | null | bool | number | string => simp [Token.mark?] at marked
  | openArray | closeArray | openObject | closeObject | colon | comma =>
    obtain rfl := Option.some.inj marked
    exact ⟨rfl, rfl, fun _ => rfl⟩

theorem stops_mark (marked : token.mark? = some mark) (text : List Char) : Stops (mark :: text) := by
  intro c first
  obtain rfl := Option.some.inj first
  exact (mark_spec marked).2.1

theorem tokens_mark (marked : token.mark? = some mark) (text : List Char) :
    tokens (mark :: text) = (tokens text).map (token :: ·) :=
  tokens_cons (mark_spec marked).1 ((mark_spec marked).2.2 text)

/-- A token that is one character is read from that character. -/
theorem eq_of_readToken_mark (marked : token.mark? = some mark)
    (h : readToken c text = some (token, rest)) : c = mark ∧ rest = text := by
  unfold readToken at h
  split at h
  case h_7 | h_8 | h_9 | h_10 =>
    obtain ⟨_, _, same⟩ := Option.map_eq_some_iff.mp h
    rw [← (Prod.mk.inj same).1] at marked
    simp [Token.mark?] at marked
  case h_11 =>
    split at h
    · split at h
      · rw [← (Prod.mk.inj (Option.some.inj h)).1] at marked
        simp [Token.mark?] at marked
      · simp at h
    · simp at h
  all_goals
    obtain ⟨rfl, rfl⟩ := Prod.mk.inj (Option.some.inj h)
    exact ⟨Option.some.inj marked, rfl⟩

/-- Behind a text with its tokens another text starts anew, unless it could prolong a numeral. -/
theorem tokens_append (h : tokens text = some list) (stops : Stops more) :
    tokens (text ++ more) = (tokens more).map (list ++ ·) := by
  fun_induction tokens text generalizing list with
  | case1 =>
    obtain rfl := Option.some.inj h
    simp
  | case2 c rest space ih =>
    rw [List.cons_append, tokens, if_pos space, ih h]
  | case3 => simp at h
  | case4 c text visible token rest first ih =>
    obtain ⟨later, cut, rfl⟩ := Option.map_eq_some_iff.mp h
    obtain ⟨piece, rfl, _, again⟩ := exact_readToken first
    have follows : Follows rest (rest ++ more) := by
      cases rest with
      | nil => exact .inr stops
      | cons d rest => exact .inl rfl
    rw [List.cons_append, List.append_assoc, tokens_cons (Bool.eq_false_iff.mpr visible)
      (again _ follows), ih cut, Option.map_map]
    rfl

theorem tokens_append_mark (h : tokens text = some list) (marked : token.mark? = some mark)
    (more : List Char) :
    tokens (text ++ mark :: more) = (tokens more).map fun later => list ++ token :: later := by
  rw [tokens_append h (stops_mark marked more), tokens_mark marked, Option.map_map]
  rfl

theorem tokens_between {closing : Token} {other : Char} (h : tokens text = some list)
    (opens : token.mark? = some mark) (closes : closing.mark? = some other) :
    tokens (mark :: text ++ [other]) = some (token :: list ++ [closing]) := by
  have inside := tokens_append_mark h closes []
  rw [List.cons_append, tokens_mark opens, inside, tokens]
  rfl

/-- A text may be cut where a token is one character. -/
theorem exists_split {left right : List Token} (marked : token.mark? = some mark)
    (h : tokens text = some (left ++ token :: right)) :
    ∃ before after, text = before ++ mark :: after ∧ tokens before = some left ∧
      tokens after = some right := by
  fun_induction tokens text generalizing left with
  | case1 => simp at h
  | case2 c rest space ih =>
    obtain ⟨before, after, rfl, cut, later⟩ := ih h
    refine ⟨c :: before, after, rfl, ?_, later⟩
    rw [tokens, if_pos space, cut]
  | case3 => simp at h
  | case4 c text visible first rest found ih =>
    obtain ⟨list, cut, same⟩ := Option.map_eq_some_iff.mp h
    cases left with
    | nil =>
      obtain ⟨rfl, rfl⟩ := List.cons.inj same
      obtain ⟨rfl, rfl⟩ := eq_of_readToken_mark marked found
      exact ⟨[], rest, rfl, by rw [tokens], cut⟩
    | cons head left =>
      obtain ⟨rfl, rfl⟩ := List.cons.inj same
      obtain ⟨before, after, rfl, cutBefore, cutAfter⟩ := ih cut
      obtain ⟨piece, rfl, _, again⟩ := exact_readToken found
      refine ⟨c :: (piece ++ before), after, by simp, ?_, cutAfter⟩
      have follows : Follows (before ++ mark :: after) before := by
        cases before with
        | nil => exact .inr stops_nil
        | cons d before => exact .inl rfl
      rw [tokens_cons (Bool.eq_false_iff.mpr visible) (again before follows), cutBefore]
      rfl

theorem exists_split_first {right : List Token} (marked : token.mark? = some mark)
    (h : tokens text = some (token :: right)) :
    ∃ before after, text = before ++ mark :: after ∧ (∀ c ∈ before, isSpace c = true) ∧
      tokens after = some right := by
  obtain ⟨before, after, same, none, cut⟩ := @exists_split _ _ _ [] _ marked h
  exact ⟨before, after, same, space_of_tokens_nil none, cut⟩

/-- A mark at the end of a text is the last of its words. -/
theorem tokens_of_concat (marked : token.mark? = some mark)
    (h : tokens (text ++ [mark]) = some (list ++ [token])) : tokens text = some list := by
  obtain ⟨before, after, split, cut, none⟩ := exists_split marked h
  -- Behind the mark there are only spaces, and the last character is none.
  rcases List.eq_nil_or_concat after with rfl | ⟨front, last, rfl⟩
  · obtain rfl : text = before := (List.append_inj' split rfl).1
    exact cut
  · have space := space_of_tokens_nil none last (by simp)
    have whole : text ++ [mark] = (before ++ mark :: front) ++ [last] := by simpa using split
    obtain rfl : mark = last := by simpa using (List.append_inj' whole rfl).2
    rw [(mark_spec marked).1] at space
    simp at space

theorem eq_quote_of_readToken {name : String} (h : readToken c text = some (.string name, rest)) :
    c = '"' := by
  unfold readToken at h
  split at h
  case h_10 => rfl
  case h_7 | h_8 | h_9 =>
    obtain ⟨_, _, same⟩ := Option.map_eq_some_iff.mp h
    simp at same
  case h_11 =>
    split at h
    · split at h <;> simp at h
    · simp at h
  all_goals simp at h

/-- A text that is one string and nothing else is a literal between spaces. -/
theorem exists_literal {name : String} (h : tokens text = some [.string name]) :
    ∃ front content back, text = front ++ ('"' :: content ++ ['"'] ++ back) ∧
      (∀ c ∈ front, isSpace c = true) ∧ (∀ c ∈ back, isSpace c = true) ∧
      tokens ('"' :: content ++ ['"']) = some [.string name] := by
  fun_induction tokens text with
  | case1 => simp at h
  | case2 c rest space ih =>
    obtain ⟨front, content, back, rfl, spaces, more⟩ := ih h
    refine ⟨c :: front, content, back, rfl, ?_, more⟩
    intro d member
    rcases List.mem_cons.mp member with rfl | member
    · exact space
    · exact spaces d member
  | case3 => simp at h
  | case4 c text visible token rest first ih =>
    obtain ⟨later, cut, same⟩ := Option.map_eq_some_iff.mp h
    obtain ⟨rfl, rfl⟩ := List.cons.inj same
    obtain rfl := eq_quote_of_readToken first
    obtain ⟨read, string, pair⟩ := Option.map_eq_some_iff.mp first
    obtain ⟨found, rfl⟩ := Prod.mk.inj pair
    obtain ⟨content, rfl, again⟩ := @exact_readString _ read.2 read.1 string
    refine ⟨[], content, read.2, by simp, by simp, space_of_tokens_nil cut, ?_⟩
    have alone : readToken '"' (content ++ ['"']) = some (.string name, []) := by
      simp [readToken, again [], ← found]
    rw [List.cons_append, tokens_cons (by decide) alone, tokens]
    rfl

/-- A comma at the end of a text with tokens is the last of them. -/
theorem getLast?_tokens (h : tokens text = some list) (ends : text.getLast? = some ',') :
    list.getLast? = some .comma := by
  fun_induction tokens text generalizing list with
  | case1 => simp at ends
  | case2 c rest space ih =>
    cases rest with
    | nil =>
      obtain rfl := Option.some.inj ends
      exact absurd space (by decide)
    | cons d rest =>
      rw [List.getLast?_cons_cons] at ends
      exact ih h ends
  | case3 => simp at h
  | case4 c text visible token rest first ih =>
    obtain ⟨later, cut, rfl⟩ := Option.map_eq_some_iff.mp h
    obtain ⟨piece, rfl, ⟨last, closes, _, comma⟩, _⟩ := exact_readToken first
    rw [← List.cons_append, List.getLast?_append] at ends
    cases rest with
    | nil =>
      obtain rfl : later = [] := by simpa [tokens, eq_comm] using cut
      rw [List.getLast?_nil, Option.none_or, closes] at ends
      rw [comma (Option.some.inj ends)]
      rfl
    | cons d rest =>
      rw [List.getLast?_eq_some_getLast (List.cons_ne_nil d rest), Option.some_or,
        ← List.getLast?_eq_some_getLast] at ends
      rw [List.getLast?_cons, ih cut ends]
      rfl

theorem isBlank_of_readToken (h : readToken c text = some (token, rest)) : Text.isBlank c = false := by
  unfold readToken at h
  split at h
  case h_11 =>
    split at h
    · rename_i found
      obtain ⟨piece, same, number⟩ := number_of_read found
      have shorter := Numeral.length_read found
      cases piece with
      | nil =>
        rw [same] at shorter
        simp at shorter
      | cons d piece =>
        rw [(List.cons.inj same).1]
        exact isBlank_of_isNumeralChar (number.chars d List.mem_cons_self)
    · simp at h
  all_goals rfl

/-- Blank characters at the end of a text with tokens make no difference. -/
theorem tokens_of_append_blank {gap : List Char} (blank : Text.Blank gap)
    (h : tokens (text ++ gap) = some list) : tokens text = some list := by
  generalize joined : text ++ gap = whole at h
  fun_induction tokens whole generalizing text gap list with
  | case1 =>
    obtain ⟨rfl, rfl⟩ := List.append_eq_nil_iff.mp joined
    rw [tokens]
    exact h
  | case2 c rest space ih =>
    cases text with
    | nil =>
      obtain rfl : gap = c :: rest := joined
      exact @ih [] list rest (fun d member => blank d (List.mem_cons_of_mem c member)) rfl h
    | cons d text =>
      obtain ⟨rfl, same⟩ := List.cons.inj joined
      rw [tokens, if_pos space]
      exact ih blank same h
  | case3 => simp at h
  | case4 c after visible token rest first ih =>
    obtain ⟨later, cut, rfl⟩ := Option.map_eq_some_iff.mp h
    cases text with
    | nil =>
      obtain rfl : gap = c :: after := joined
      have white := blank c List.mem_cons_self
      rw [isBlank_of_readToken first] at white
      exact absurd white (by simp)
    | cons d text =>
      obtain ⟨rfl, same⟩ := List.cons.inj joined
      obtain ⟨piece, split, ⟨last, ends, dark, _⟩, again⟩ := exact_readToken first
      -- The token ends with a visible character, so it ends before the blank ones.
      obtain ⟨left, rfl, rfl⟩ : ∃ left, text = piece ++ left ∧ rest = left ++ gap := by
        rw [split] at same
        rcases List.append_eq_append_iff.mp same with ⟨extra, rfl, rfl⟩ | ⟨left, rfl, rfl⟩
        · rcases List.eq_nil_or_concat extra with rfl | ⟨front, white, rfl⟩
          · exact ⟨[], by simp, by simp⟩
          · have same : white = last := by simpa [List.getLast?_cons] using ends
            have blankLast := blank white (by simp)
            rw [same, dark] at blankLast
            exact absurd blankLast (by simp)
        · exact ⟨left, rfl, rfl⟩
      have follows : Follows (left ++ gap) left := by
        cases left with
        | nil => exact .inr stops_nil
        | cons d left => exact .inl rfl
      rw [tokens_cons (Bool.eq_false_iff.mpr visible) (again left follows), ih blank rfl cut]
      rfl

theorem tokens_of_blank_append {gap : List Char} (blank : Text.Blank gap)
    (h : tokens (gap ++ text) = some list) : tokens text = some list := by
  induction gap with
  | nil => exact h
  | cons c gap ih =>
    rw [List.cons_append, tokens] at h
    split at h
    · exact ih (fun d member => blank d (List.mem_cons_of_mem c member)) h
    · split at h
      · simp at h
      · rename_i token rest first
        have visible := isBlank_of_readToken first
        rw [blank c List.mem_cons_self] at visible
        simp at visible

end Tokens

end ImplementorIndex.Json
