import ImplementorIndex.Json.Reader
import ImplementorIndex.Proofs.Text.Pieces

/-!
# What the JSON reader takes off a text

The inside of a string and a number are described as JSON has them, with any escapes and any number of
digits. The reader takes a text of this kind off the front and refuses some of them: half a surrogate
pair and numbers that are too large. A literal that is read as a whole has no quote in the open,
whatever escapes stand in it.
-/

namespace ImplementorIndex.Json

open Text (Guarded)

section Strings

variable {text rest : List Char}

def escapeLetters : List Char := ['"', '\\', '/', 'b', 'f', 'n', 'r', 't']

inductive Content : List Char → Prop where
  | nil : Content []
  | plain {c : Char} {rest : List Char} (quote : c ≠ '"') (slash : c ≠ '\\')
    (visible : 0x20 ≤ c.toNat) (h : Content rest) : Content (c :: rest)
  | letter {c : Char} {rest : List Char} (known : c ∈ escapeLetters) (h : Content rest) :
    Content ('\\' :: c :: rest)
  | code {digits rest : List Char} (four : digits.length = 4)
    (hex : ∀ c ∈ digits, (hexValue? c).isSome = true) (h : Content rest) :
    Content ('\\' :: 'u' :: (digits ++ rest))

theorem guarded_hex {digits : List Char} (hex : ∀ c ∈ digits, (hexValue? c).isSome = true)
    (guarded : Guarded '"' rest) : Guarded '"' (digits ++ rest) := by
  induction digits with
  | nil => exact guarded
  | cons c digits ih =>
    have first := hex c List.mem_cons_self
    have later := ih fun d member => hex d (List.mem_cons_of_mem _ member)
    refine .plain ?_ ?_ later
    · intro quote
      rw [quote] at first
      exact absurd first (by decide)
    · intro slash
      rw [slash] at first
      exact absurd first (by decide)

theorem Content.guarded (h : Content text) : Guarded '"' text := by
  induction h with
  | nil => exact .nil
  | plain quote slash _ _ ih => exact .plain quote slash ih
  | letter _ _ ih => exact .escaped ih
  | code _ hex _ ih => exact .escaped (guarded_hex hex ih)

theorem exists_hex4 {unit : Nat} (h : readHex4 text = some (unit, rest)) :
    ∃ digits, text = digits ++ rest ∧ digits.length = 4 ∧
      ∀ c ∈ digits, (hexValue? c).isSome = true := by
  unfold readHex4 at h
  split at h
  · rename_i a b c d after
    simp only [Option.bind_eq_bind, Option.bind_eq_some_iff, Option.pure_def, Option.some.injEq,
      Prod.mk.injEq] at h
    obtain ⟨_, ha, _, hb, _, hc, _, hd, _, rfl⟩ := h
    refine ⟨[a, b, c, d], rfl, rfl, ?_⟩
    simp [ha, hb, hc, hd]
  · simp at h

theorem content_of_readCode {c : Char} (h : readCode text = some (c, rest)) :
    ∃ code, text = code ++ rest ∧
      ∀ more, Content more → Content ('\\' :: 'u' :: (code ++ more)) := by
  simp only [readCode, Option.bind_eq_bind, Option.bind_eq_some_iff, Prod.exists] at h
  obtain ⟨unit, after, first, h⟩ := h
  obtain ⟨digits, rfl, four, hex⟩ := exists_hex4 first
  split at h
  · simp at h
  · split at h
    · split at h
      · rename_i after
        simp only [Option.bind_eq_some_iff, Prod.exists] at h
        obtain ⟨second, last, other, h⟩ := h
        obtain ⟨more, rfl, fourMore, hexMore⟩ := exists_hex4 other
        split at h
        · simp only [Option.pure_def, Option.some.injEq, Prod.mk.injEq] at h
          obtain ⟨_, rfl⟩ := h
          refine ⟨digits ++ '\\' :: 'u' :: more, by simp, ?_⟩
          intro tail content
          rw [List.append_assoc]
          exact .code four hex (.code fourMore hexMore content)
        · simp at h
      · simp at h
    · simp only [Option.pure_def, Option.some.injEq, Prod.mk.injEq] at h
      obtain ⟨_, rfl⟩ := h
      exact ⟨digits, rfl, fun more content => .code four hex content⟩

theorem mem_escapeLetters {c found : Char} (h : escapeLetter? c = some found) :
    c ∈ escapeLetters := by
  unfold escapeLetter? at h
  split at h
  case h_9 => cases h
  all_goals decide

theorem content_of_readEscape {c : Char} (h : readEscape text = some (c, rest)) :
    ∃ code, text = code ++ rest ∧ ∀ more, Content more → Content ('\\' :: (code ++ more)) := by
  cases text with
  | nil => simp [readEscape] at h
  | cons letter tail =>
    simp only [readEscape] at h
    split at h
    · rename_i mark
      obtain ⟨code, rfl, content⟩ := content_of_readCode h
      exact ⟨letter :: code, rfl, mark ▸ content⟩
    · simp only [Option.map_eq_some_iff, Prod.mk.injEq] at h
      obtain ⟨found, known, _, rfl⟩ := h
      exact ⟨[letter], rfl, fun more content => .letter (mem_escapeLetters known) content⟩

theorem content_of_readString {content : List Char} (h : readString text = some (content, rest)) :
    ∃ inside, text = inside ++ '"' :: rest ∧ Content inside := by
  fun_induction readString text generalizing content rest with
  | case1 => simp at h
  | case2 after =>
    simp only [Option.some.injEq, Prod.mk.injEq] at h
    obtain ⟨_, rfl⟩ := h
    exact ⟨[], rfl, .nil⟩
  | case3 => simp at h
  | case4 tail found after escape _ ih =>
    simp only [Option.map_eq_some_iff, Prod.mk.injEq] at h
    obtain ⟨read, later, _, rfl⟩ := h
    obtain ⟨code, rfl, grows⟩ := content_of_readEscape escape
    obtain ⟨inside, rfl, inner⟩ := @ih read.2 read.1 later
    exact ⟨'\\' :: (code ++ inside), by simp, grows inside inner⟩
  | case5 => simp at h
  | case6 c tail quote slash visible ih =>
    simp only [Option.map_eq_some_iff, Prod.mk.injEq] at h
    obtain ⟨read, later, _, rfl⟩ := h
    obtain ⟨inside, rfl, inner⟩ := @ih read.2 read.1 later
    exact ⟨c :: inside, rfl, .plain quote slash (Nat.le_of_not_lt visible) inner⟩

theorem space_of_tokens_nil (h : tokens text = some []) :
    ∀ c ∈ text, isSpace c = true := by
  fun_induction tokens text with
  | case1 => simp
  | case2 c rest space ih =>
    intro d hm
    rcases List.mem_cons.mp hm with rfl | hm
    · exact space
    · exact ih h d hm
  | case3 => simp at h
  | case4 => simp at h

/-- Behind a finished value there is no token. -/
theorem nil_of_takeAll_finished {value last : Value} {list : List Token}
    (h : (State.finished value).takeAll list = some (.finished last)) : list = [] := by
  cases list with
  | nil => rfl
  | cons token rest => simp [State.takeAll, State.take] at h

/-- A literal that is read as one value has no quote in the open. -/
theorem guarded_of_read {content : List Char} {value : Value}
    (h : read ('"' :: content ++ ['"']) = some value) : Guarded '"' content := by
  rw [read, Option.bind_eq_some_iff] at h
  obtain ⟨list, cut, made⟩ := h
  rw [List.cons_append, tokens] at cut
  simp only [show isSpace '"' = false by decide, Bool.false_eq_true, if_false] at cut
  split at cut
  · simp at cut
  · rename_i token rest first
    simp only [readToken, Option.map_eq_some_iff, Prod.mk.injEq] at first
    obtain ⟨found, string, rfl, rfl⟩ := first
    simp only [Option.map_eq_some_iff] at cut
    obtain ⟨later, cutLater, rfl⟩ := cut
    -- The string is the whole value, so only spaces could follow it, and the last character is none.
    have alone : later = [] := by
      simp only [ofTokens, State.takeAll, State.take, beginValue, complete, Option.bind_eq_bind,
        Option.bind_some] at made
      split at made
      · rename_i finished
        exact nil_of_takeAll_finished finished
      · simp at made
    subst alone
    have spaces := space_of_tokens_nil cutLater
    obtain ⟨inside, split, inner⟩ := @content_of_readString _ found.2 found.1 string
    have guarded := inner.guarded
    rcases List.eq_nil_or_concat found.2 with none | ⟨front, last, more⟩
    · rw [none] at split
      exact (List.append_inj' split rfl).1 ▸ guarded
    · rw [more] at split spaces
      have same : content ++ ['"'] = (inside ++ '"' :: front) ++ [last] := by simpa using split
      obtain rfl : '"' = last := by simpa using (List.append_inj' same rfl).2
      have space := spaces '"' (by simp)
      simp [isSpace] at space

end Strings

section Numerals

def isNumeralChar (c : Char) : Bool :=
  c.isDigit || c = '-' || c = '+' || c = '.' || c = 'e' || c = 'E'

variable {text rest digits : List Char}

def Digits (text : List Char) : Prop := text ≠ [] ∧ ∀ c ∈ text, c.isDigit = true

inductive Whole : List Char → Prop where
  | zero : Whole ['0']
  | digits {c : Char} {rest : List Char} (first : c ≠ '0') (all : ∀ d ∈ c :: rest, d.isDigit = true) :
    Whole (c :: rest)

inductive Fraction : List Char → Prop where
  | absent : Fraction []
  | point {digits : List Char} (h : Digits digits) : Fraction ('.' :: digits)

inductive Exponent : List Char → Prop where
  | absent : Exponent []
  | mark {mark : Char} {sign digits : List Char} (known : mark = 'e' ∨ mark = 'E')
    (signed : sign = [] ∨ sign = ['-'] ∨ sign = ['+']) (h : Digits digits) :
    Exponent (mark :: (sign ++ digits))

inductive Number : List Char → Prop where
  | intro {sign whole fraction exponent : List Char} (signed : sign = [] ∨ sign = ['-'])
    (h : Whole whole) (h' : Fraction fraction) (h'' : Exponent exponent) :
    Number (sign ++ (whole ++ (fraction ++ exponent)))

theorem isNumeralChar_of_isDigit (c : Char) (h : c.isDigit = true) : isNumeralChar c = true := by
  simp [isNumeralChar, h]

theorem Number.chars (h : Number text) : ∀ c ∈ text, isNumeralChar c = true := by
  obtain ⟨signed, whole, fraction, exponent⟩ := h
  have ofSign : ∀ sign : List Char, sign = [] ∨ sign = ['-'] ∨ sign = ['+'] →
      ∀ c ∈ sign, isNumeralChar c = true := by
    intro sign signed c member
    rcases signed with rfl | rfl | rfl
    · cases member
    · rw [List.mem_singleton.mp member]
      decide
    · rw [List.mem_singleton.mp member]
      decide
  intro c member
  rcases List.mem_append.mp member with member | member
  · exact ofSign _ (signed.imp_right .inl) c member
  rcases List.mem_append.mp member with member | member
  · cases whole with
    | zero =>
      rw [List.mem_singleton.mp member]
      decide
    | digits _ all => exact isNumeralChar_of_isDigit c (all c member)
  rcases List.mem_append.mp member with member | member
  · cases fraction with
    | absent => cases member
    | point digits =>
      rcases List.mem_cons.mp member with rfl | member
      · decide
      · exact isNumeralChar_of_isDigit c (digits.2 c member)
  · cases exponent with
    | absent => cases member
    | mark known signed digits =>
      rcases List.mem_cons.mp member with rfl | member
      · rcases known with rfl | rfl <;> decide
      rcases List.mem_append.mp member with member | member
      · exact ofSign _ signed c member
      · exact isNumeralChar_of_isDigit c (digits.2 c member)

theorem digits_of_takeDigits (h : Numeral.takeDigits text = (digits, rest)) :
    text = digits ++ rest ∧ ∀ c ∈ digits, c.isDigit = true := by
  obtain ⟨rfl, rfl⟩ := Prod.mk.inj h
  exact ⟨List.takeWhile_append_dropWhile.symm, List.all_eq_true.mp List.all_takeWhile⟩

theorem whole_of_readWhole (h : Numeral.readWhole text = some (digits, rest)) :
    ∃ piece, text = piece ++ rest ∧ Whole piece := by
  cases text with
  | nil => simp [Numeral.readWhole] at h
  | cons c tail =>
    simp only [Numeral.readWhole] at h
    split at h
    · rename_i zero
      simp only [Option.some.injEq, Prod.mk.injEq] at h
      obtain ⟨_, rfl⟩ := h
      exact ⟨['0'], by rw [zero]; rfl, .zero⟩
    · rename_i nonzero
      split at h
      · rename_i digit
        cases cut : Numeral.takeDigits tail with
        | mk found left =>
          simp only [cut, Option.some.injEq, Prod.mk.injEq] at h
          obtain ⟨rfl, rfl⟩ := h
          obtain ⟨rfl, all⟩ := digits_of_takeDigits cut
          refine ⟨c :: found, rfl, .digits nonzero ?_⟩
          intro d member
          rcases List.mem_cons.mp member with rfl | member
          · exact digit
          · exact all d member
      · simp at h

theorem fraction_of_readFraction (h : Numeral.readFraction text = some (digits, rest)) :
    ∃ piece, text = piece ++ rest ∧ Fraction piece := by
  cases text with
  | nil =>
    simp only [Numeral.readFraction, Option.some.injEq, Prod.mk.injEq] at h
    exact ⟨[], h.2, .absent⟩
  | cons c tail =>
    simp only [Numeral.readFraction] at h
    split at h
    · rename_i point
      split at h
      · simp at h
      · rename_i more
        simp only [Option.some.injEq] at h
        obtain ⟨rfl, all⟩ := digits_of_takeDigits h
        refine ⟨'.' :: digits, by rw [point]; rfl, .point ⟨?_, all⟩⟩
        intro empty
        exact more rest (empty ▸ h)
    · simp only [Option.some.injEq, Prod.mk.injEq] at h
      exact ⟨[], h.2, .absent⟩

theorem sign_of_readSign (text : List Char) :
    ∃ sign, text = sign ++ (Numeral.readSign text).2 ∧ (sign = [] ∨ sign = ['-'] ∨ sign = ['+']) := by
  unfold Numeral.readSign
  split
  · exact ⟨['-'], rfl, .inr (.inl rfl)⟩
  · exact ⟨['+'], rfl, .inr (.inr rfl)⟩
  · exact ⟨[], rfl, .inl rfl⟩

theorem exponent_of_readExponent {found : Option (Bool × List Char)}
    (h : Numeral.readExponent text = some (found, rest)) :
    ∃ piece, text = piece ++ rest ∧ Exponent piece := by
  cases text with
  | nil =>
    simp only [Numeral.readExponent, Option.some.injEq, Prod.mk.injEq] at h
    exact ⟨[], h.2, .absent⟩
  | cons c tail =>
    simp only [Numeral.readExponent] at h
    split at h
    · rename_i mark
      obtain ⟨sign, split, signed⟩ := sign_of_readSign tail
      split at h
      · simp at h
      · rename_i digits left more cut
        simp only [Option.some.injEq, Prod.mk.injEq] at h
        obtain ⟨_, rfl⟩ := h
        obtain ⟨same, all⟩ := digits_of_takeDigits cut
        refine ⟨c :: (sign ++ digits), ?_, .mark (by simpa using mark) signed ⟨?_, all⟩⟩
        · rw [split, same]
          simp
        · intro empty
          exact more empty
    · simp only [Option.some.injEq, Prod.mk.injEq] at h
      exact ⟨[], h.2, .absent⟩

/-- What is taken off as a numeral is a number. -/
theorem number_of_read {numeral : Numeral} (h : Numeral.read text = some (numeral, rest)) :
    ∃ piece, text = piece ++ rest ∧ Number piece := by
  have unsigned : ∀ negative sign text, sign = [] ∨ sign = ['-'] →
      Numeral.readUnsigned negative text = some (numeral, rest) →
      ∃ piece, sign ++ text = piece ++ rest ∧ Number piece := by
    intro negative sign text signed h
    simp only [Numeral.readUnsigned, Option.bind_eq_bind, Option.bind_eq_some_iff, Prod.exists,
      Option.pure_def, Option.some.injEq, Prod.mk.injEq] at h
    obtain ⟨_, _, hw, _, _, hf, _, _, he, _, rfl⟩ := h
    obtain ⟨whole, rfl, isWhole⟩ := whole_of_readWhole hw
    obtain ⟨fraction, rfl, isFraction⟩ := fraction_of_readFraction hf
    obtain ⟨exponent, rfl, isExponent⟩ := exponent_of_readExponent he
    exact ⟨_, by simp, .intro signed isWhole isFraction isExponent⟩
  unfold Numeral.read at h
  split at h
  · exact unsigned true ['-'] _ (.inr rfl) h
  · exact unsigned false [] text (.inl rfl) h

end Numerals

end ImplementorIndex.Json
