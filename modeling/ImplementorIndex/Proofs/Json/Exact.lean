import ImplementorIndex.Proofs.Json.Pieces
import ImplementorIndex.Proofs.Json.RoundTrip

/-!
# Where a token ends

Where one token of a text ends does not depend on what comes behind it, except that a character of
numerals may prolong a numeral. This is said once of each function that reads a piece off the front
of a text: it takes the same piece wherever something alike follows.
-/

namespace ImplementorIndex.Json

def Stops (text : List Char) : Prop := ∀ c, text.head? = some c → isNumeralChar c = false

/-- A text may stand in the place of another one behind a token: it starts alike, or it does not start
with a character of numerals. -/
def Follows (rest more : List Char) : Prop := more.head? = rest.head? ∨ Stops more

/-- Reading takes a piece off the text, and the same piece wherever something alike follows. -/
def Exact {α : Type} (reader : List Char → Option (α × List Char)) (text : List Char) (found : α)
    (rest : List Char) : Prop :=
  ∃ piece, text = piece ++ rest ∧
    ∀ more, Follows rest more → reader (piece ++ more) = some (found, more)

section Numerals

open Numeral

variable {text rest more digits : List Char}

theorem stops_nil : Stops [] := by
  intro c first
  simp at first

theorem Follows.append (h : Follows rest more) (piece : List Char) :
    Follows (piece ++ rest) (piece ++ more) := by
  cases piece with
  | nil => exact h
  | cons c piece => exact .inl rfl

/-- What the first character of a text is not, it is not either where something alike stands. -/
theorem Follows.clear (kind : Char → Bool) (h : Follows rest more)
    (numeral : ∀ c, kind c = true → isNumeralChar c = true)
    (clear : ∀ c, rest.head? = some c → kind c = false) :
    ∀ c, more.head? = some c → kind c = false := by
  intro c first
  rcases h with alike | stops
  · exact clear c (alike ▸ first)
  · cases known : kind c with
    | false => rfl
    | true =>
      have other := stops c first
      rw [numeral c known] at other
      exact absurd other (by simp)

theorem exact_takeDigits (h : takeDigits text = (digits, rest)) :
    text = digits ++ rest ∧
      ∀ more, Follows rest more → takeDigits (digits ++ more) = (digits, more) := by
  obtain ⟨rfl, rfl⟩ := Prod.mk.inj h
  refine ⟨List.takeWhile_append_dropWhile.symm, ?_⟩
  intro more follows
  have all : ∀ c ∈ text.takeWhile Char.isDigit, c.isDigit = true :=
    List.all_eq_true.mp List.all_takeWhile
  have clear := follows.clear Char.isDigit isNumeralChar_of_isDigit (by
    intro c first
    have ended := List.head?_dropWhile_not Char.isDigit text
    rw [first] at ended
    simpa using ended)
  have none : more.takeWhile Char.isDigit = [] ∧ more.dropWhile Char.isDigit = more := by
    cases more with
    | nil => exact ⟨rfl, rfl⟩
    | cons c more => simp [clear c rfl]
  rw [takeDigits, List.takeWhile_append_of_pos all, List.dropWhile_append_of_pos all, none.1, none.2,
    List.append_nil]

theorem exact_readWhole (h : readWhole text = some (digits, rest)) :
    Exact readWhole text digits rest := by
  cases text with
  | nil => simp [readWhole] at h
  | cons c tail =>
    simp only [readWhole] at h
    split at h
    · rename_i zero
      simp only [Option.some.injEq, Prod.mk.injEq] at h
      obtain ⟨rfl, rfl⟩ := h
      refine ⟨[c], rfl, ?_⟩
      intro more _
      simp [readWhole, zero]
    · rename_i zero
      split at h
      · rename_i digit
        cases cut : takeDigits tail with
        | mk found left =>
          simp only [cut, Option.some.injEq, Prod.mk.injEq] at h
          obtain ⟨rfl, rfl⟩ := h
          obtain ⟨same, again⟩ := exact_takeDigits cut
          refine ⟨c :: found, congrArg (c :: ·) same, ?_⟩
          intro more follows
          simp [readWhole, zero, digit, again more follows]
      · simp at h

theorem exact_readFraction (h : readFraction text = some (digits, rest)) :
    Exact readFraction text digits rest := by
  -- Without a point nothing is taken, and then no point may follow.
  have absent (clear : ∀ c, rest.head? = some c → (c = '.' : Bool) = false) (same : text = rest)
      (none : digits = []) : Exact readFraction text digits rest := by
    refine ⟨[], same, ?_⟩
    intro more follows
    have clear := follows.clear (fun c => c = '.') (by
      intro c point
      simp [isNumeralChar, of_decide_eq_true point]) clear
    rw [none]
    cases more with
    | nil => rfl
    | cons c more => simp [readFraction, of_decide_eq_false (clear c rfl)]
  cases text with
  | nil =>
    simp only [readFraction, Option.some.injEq, Prod.mk.injEq] at h
    obtain ⟨rfl, rfl⟩ := h
    exact absent (by simp) rfl rfl
  | cons c tail =>
    simp only [readFraction] at h
    split at h
    · rename_i point
      split at h
      · simp at h
      · rename_i some
        simp only [Option.some.injEq] at h
        obtain ⟨same, again⟩ := exact_takeDigits h
        refine ⟨c :: digits, congrArg (c :: ·) same, ?_⟩
        intro more follows
        cases digits with
        | nil => exact absurd h (some rest)
        | cons d digits =>
          simp only [readFraction, point, List.cons_append, if_true] at again ⊢
          rw [again more follows]
    · rename_i point
      simp only [Option.some.injEq, Prod.mk.injEq] at h
      obtain ⟨rfl, rfl⟩ := h
      refine absent ?_ rfl rfl
      intro d first
      obtain rfl := Option.some.inj first
      exact decide_eq_false point

theorem exact_readSign (text : List Char) :
    ∃ piece, text = piece ++ (readSign text).2 ∧
      ∀ more, Follows (readSign text).2 more →
        readSign (piece ++ more) = ((readSign text).1, more) := by
  unfold readSign
  split
  · exact ⟨['-'], rfl, fun more _ => rfl⟩
  · exact ⟨['+'], rfl, fun more _ => rfl⟩
  · rename_i text minus plus
    refine ⟨[], rfl, ?_⟩
    intro more follows
    have clear := follows.clear (fun c => c = '-' || c = '+') (by
      intro c sign
      rcases Bool.or_eq_true _ _ ▸ sign with sign | sign
      · simp [isNumeralChar, of_decide_eq_true sign]
      · simp [isNumeralChar, of_decide_eq_true sign]) (by
      intro c first
      obtain ⟨tail, rfl⟩ := List.head?_eq_some_iff.mp first
      have noMinus : c ≠ '-' := fun e => minus tail (by rw [e])
      have noPlus : c ≠ '+' := fun e => plus tail (by rw [e])
      simp [noMinus, noPlus])
    cases more with
    | nil => rfl
    | cons c more =>
      have none := clear c rfl
      simp only [Bool.or_eq_false_iff, decide_eq_false_iff_not] at none
      rw [List.nil_append]
      split
      · rename_i same
        exact absurd (List.cons.inj same).1 none.1
      · rename_i same
        exact absurd (List.cons.inj same).1 none.2
      · rfl

theorem exact_readExponent {found : Option (Bool × List Char)}
    (h : readExponent text = some (found, rest)) : Exact readExponent text found rest := by
  have absent (clear : ∀ c, rest.head? = some c → (c = 'e' || c = 'E' : Bool) = false)
      (same : text = rest) (none : found = none) : Exact readExponent text found rest := by
    refine ⟨[], same, ?_⟩
    intro more follows
    have clear := follows.clear (fun c => c = 'e' || c = 'E') (by
      intro c mark
      rcases Bool.or_eq_true _ _ ▸ mark with mark | mark
      · simp [isNumeralChar, of_decide_eq_true mark]
      · simp [isNumeralChar, of_decide_eq_true mark]) clear
    rw [none]
    cases more with
    | nil => rfl
    | cons c more =>
      rw [List.nil_append, readExponent, clear c rfl]
      rfl
  cases text with
  | nil =>
    simp only [readExponent, Option.some.injEq, Prod.mk.injEq] at h
    obtain ⟨rfl, rfl⟩ := h
    exact absent (by simp) rfl rfl
  | cons c tail =>
    simp only [readExponent] at h
    split at h
    · rename_i mark
      obtain ⟨sign, signed, again⟩ := exact_readSign tail
      split at h
      · simp at h
      · rename_i digits left some cut
        simp only [Option.some.injEq, Prod.mk.injEq] at h
        obtain ⟨rfl, rfl⟩ := h
        obtain ⟨same, againDigits⟩ := exact_takeDigits cut
        refine ⟨c :: sign ++ digits, ?_, ?_⟩
        · rw [signed, same]
          simp
        · intro more follows
          have signFollows : Follows (readSign tail).2 (digits ++ more) := by
            rw [same]
            exact follows.append digits
          rw [List.cons_append, List.cons_append, List.append_assoc, readExponent]
          simp only [mark, if_true, again _ signFollows]
          cases digits with
          | nil => exact absurd rfl some
          | cons d digits => rw [againDigits more follows]
    · rename_i mark
      simp only [Option.some.injEq, Prod.mk.injEq] at h
      obtain ⟨rfl, rfl⟩ := h
      refine absent ?_ rfl rfl
      intro d first
      obtain rfl := Option.some.inj first
      exact Bool.eq_false_iff.mpr mark

theorem exact_readUnsigned {negative : Bool} {numeral : Numeral}
    (h : readUnsigned negative text = some (numeral, rest)) :
    Exact (readUnsigned negative) text numeral rest := by
  simp only [readUnsigned, Option.bind_eq_bind, Option.bind_eq_some_iff, Prod.exists,
    Option.pure_def, Option.some.injEq, Prod.mk.injEq] at h
  obtain ⟨digits, afterDigits, whole, fraction, afterFraction, point, found, afterFound, exponent,
    rfl, rfl⟩ := h
  obtain ⟨first, rfl, againWhole⟩ := exact_readWhole whole
  obtain ⟨second, rfl, againFraction⟩ := exact_readFraction point
  obtain ⟨third, rfl, againExponent⟩ := exact_readExponent exponent
  refine ⟨first ++ (second ++ third), by simp, ?_⟩
  intro more follows
  have afterThird := follows.append third
  simp only [readUnsigned, List.append_assoc, againWhole _ (afterThird.append second),
    againFraction _ afterThird, againExponent _ follows, Option.bind_eq_bind, Option.bind_some,
    Option.pure_def]

theorem exact_read {numeral : Numeral} (h : Numeral.read text = some (numeral, rest)) :
    Exact Numeral.read text numeral rest := by
  have shorter := Numeral.length_read h
  unfold Numeral.read at h
  split at h
  · obtain ⟨piece, same, again⟩ := exact_readUnsigned h
    exact ⟨'-' :: piece, congrArg ('-' :: ·) same, again⟩
  · rename_i unsigned
    obtain ⟨piece, rfl, again⟩ := exact_readUnsigned h
    cases piece with
    | nil => simp at shorter
    | cons c piece =>
      have sign : c ≠ '-' := by
        rintro rfl
        exact unsigned _ rfl
      refine ⟨c :: piece, rfl, ?_⟩
      intro more follows
      rw [← again more follows, List.cons_append, Numeral.read]
      rintro tail same
      exact sign (List.cons.inj same).1

end Numerals

section Strings

variable {text rest content : List Char} {c : Char}

theorem exact_readHex4 {unit : Nat} (h : readHex4 text = some (unit, rest)) :
    Exact readHex4 text unit rest := by
  unfold readHex4 at h
  split at h
  · rename_i a b c d after
    simp only [Option.bind_eq_bind, Option.bind_eq_some_iff, Option.pure_def, Option.some.injEq,
      Prod.mk.injEq] at h
    obtain ⟨_, ha, _, hb, _, hc, _, hd, rfl, rfl⟩ := h
    refine ⟨[a, b, c, d], rfl, ?_⟩
    intro more _
    simp [readHex4, ha, hb, hc, hd]
  · simp at h

theorem exact_readCode (h : readCode text = some (c, rest)) : Exact readCode text c rest := by
  simp only [readCode, Option.bind_eq_bind, Option.bind_eq_some_iff, Prod.exists] at h
  obtain ⟨unit, after, first, h⟩ := h
  obtain ⟨digits, rfl, again⟩ := exact_readHex4 first
  split at h
  · simp at h
  · rename_i trailing
    split at h
    · rename_i leading
      split at h
      · rename_i after
        simp only [Option.bind_eq_some_iff, Prod.exists] at h
        obtain ⟨second, last, other, h⟩ := h
        obtain ⟨later, rfl, againLater⟩ := exact_readHex4 other
        split at h
        · rename_i pair
          simp only [Option.pure_def, Option.some.injEq, Prod.mk.injEq] at h
          obtain ⟨rfl, rfl⟩ := h
          refine ⟨digits ++ '\\' :: 'u' :: later, by simp, ?_⟩
          intro more follows
          have first := again ('\\' :: 'u' :: (later ++ more)) (.inl rfl)
          rw [List.append_assoc, List.cons_append, List.cons_append]
          simp [readCode, first, trailing, leading, againLater more follows, pair]
        · simp at h
      · simp at h
    · rename_i leading
      simp only [Option.pure_def, Option.some.injEq, Prod.mk.injEq] at h
      obtain ⟨rfl, rfl⟩ := h
      refine ⟨digits, rfl, ?_⟩
      intro more follows
      simp [readCode, again more follows, trailing, leading]

theorem exact_readEscape (h : readEscape text = some (c, rest)) : Exact readEscape text c rest := by
  cases text with
  | nil => simp [readEscape] at h
  | cons letter tail =>
    simp only [readEscape] at h
    split at h
    · rename_i code
      obtain ⟨digits, rfl, again⟩ := exact_readCode h
      refine ⟨letter :: digits, rfl, ?_⟩
      intro more follows
      simp [readEscape, code, again more follows]
    · rename_i code
      simp only [Option.map_eq_some_iff, Prod.mk.injEq] at h
      obtain ⟨_, found, rfl, rfl⟩ := h
      refine ⟨[letter], rfl, ?_⟩
      intro more _
      simp [readEscape, code, found]

/-- A string ends at its quote, whatever follows. -/
theorem exact_readString (h : readString text = some (content, rest)) :
    ∃ inside, text = inside ++ '"' :: rest ∧
      ∀ more, readString (inside ++ '"' :: more) = some (content, more) := by
  fun_induction readString text generalizing rest content with
  | case1 => simp at h
  | case2 after =>
    simp only [Option.some.injEq, Prod.mk.injEq] at h
    obtain ⟨rfl, rfl⟩ := h
    exact ⟨[], rfl, readString_quote⟩
  | case3 => simp at h
  | case4 tail found after escape _ ih =>
    simp only [Option.map_eq_some_iff, Prod.mk.injEq] at h
    obtain ⟨read, later, rfl, rfl⟩ := h
    obtain ⟨inside, rfl, againLater⟩ := @ih read.2 read.1 later
    obtain ⟨code, rfl, again⟩ := exact_readEscape escape
    refine ⟨'\\' :: code ++ inside, by simp, ?_⟩
    intro more
    -- The string goes on behind the escape, so what follows the escape starts alike.
    have quoted : Follows ('"' :: read.2) ('"' :: more) := .inl rfl
    have alike := quoted.append inside
    rw [List.cons_append, List.cons_append, List.append_assoc,
      readString_escape (again _ alike), againLater more]
    rfl
  | case5 => simp at h
  | case6 d tail quote slash visible ih =>
    simp only [Option.map_eq_some_iff, Prod.mk.injEq] at h
    obtain ⟨read, later, rfl, rfl⟩ := h
    obtain ⟨inside, rfl, again⟩ := @ih read.2 read.1 later
    refine ⟨d :: inside, rfl, ?_⟩
    intro more
    rw [List.cons_append, readString_plain quote slash visible, again more]
    rfl

end Strings

section Tokens

variable {text rest more : List Char} {c : Char} {token : Token} {list : List Token}

theorem isBlank_of_isNumeralChar (h : isNumeralChar c = true) : Text.isBlank c = false := by
  simp only [isNumeralChar, Bool.or_eq_true, decide_eq_true_eq] at h
  rcases h with ((((digit | rfl) | rfl) | rfl) | rfl) | rfl
  · simp only [Char.isDigit, ge_iff_le, Bool.and_eq_true, decide_eq_true_eq] at digit
    have low : 48 ≤ c.toNat := UInt32.le_iff_toNat_le.mp digit.1
    have high : c.toNat ≤ 57 := UInt32.le_iff_toNat_le.mp digit.2
    simp [Text.isBlank, Text.inRanges, Text.blankRanges]
    omega
  all_goals decide

/-- How the text of a token ends: with no blank character, and with a comma only if it is one. -/
def Closes (token : Token) (text : List Char) : Prop :=
  ∃ last, text.getLast? = some last ∧ Text.isBlank last = false ∧ (last = ',' → token = .comma)

theorem closes_numeral {piece : List Char} (chars : ∀ c ∈ piece, isNumeralChar c = true)
    (some : piece ≠ []) : Closes token piece := by
  have numeral := chars (piece.getLast some) (List.getLast_mem some)
  refine ⟨piece.getLast some, List.getLast?_eq_some_getLast some,
    isBlank_of_isNumeralChar numeral, ?_⟩
  intro comma
  rw [comma] at numeral
  simp [isNumeralChar] at numeral

/-- Behind the first character of a numeral nothing but a numeral is looked for. -/
theorem readToken_numeral (h : isNumeralChar c = true) (text : List Char) :
    readToken c text =
      match Numeral.read (c :: text) with
      | some (numeral, rest) => if numeral.inRange then some (.number numeral, rest) else none
      | none => none := by
  rw [readToken]
  all_goals
    first
    | rfl
    | rintro rfl
      simp [isNumeralChar] at h

/-- A token is taken off a text with the same piece wherever something alike follows. -/
theorem exact_readToken (h : readToken c text = some (token, rest)) :
    ∃ piece, text = piece ++ rest ∧ Closes token (c :: piece) ∧
      ∀ more, Follows rest more → readToken c (piece ++ more) = some (token, more) := by
  unfold readToken at h
  split at h
  case h_7 | h_8 | h_9 =>
    obtain ⟨after, word, same⟩ := Option.map_eq_some_iff.mp h
    obtain ⟨rfl, rfl⟩ := Prod.mk.inj same
    rw [Text.stripWord?_eq_some_iff] at word
    subst word
    exact ⟨_, rfl, ⟨_, rfl, by decide, by decide⟩, fun more _ => rfl⟩
  case h_10 =>
    obtain ⟨read, string, same⟩ := Option.map_eq_some_iff.mp h
    obtain ⟨rfl, rfl⟩ := Prod.mk.inj same
    obtain ⟨inside, rfl, again⟩ := @exact_readString _ read.2 read.1 string
    refine ⟨inside ++ ['"'], by simp, ⟨'"', by simp [List.getLast?_cons], by decide, by simp⟩, ?_⟩
    intro more _
    rw [List.append_assoc, List.singleton_append]
    simp [readToken, again more]
  case h_11 =>
    split at h
    · rename_i numeral after found
      split at h
      · rename_i admitted
        simp only [Option.some.injEq, Prod.mk.injEq] at h
        obtain ⟨rfl, rfl⟩ := h
        obtain ⟨piece, same, again⟩ := exact_read found
        obtain ⟨taken, same', number⟩ := number_of_read found
        obtain rfl : taken = piece := List.append_cancel_right (same'.symm.trans same)
        have chars := number.chars
        have shorter := Numeral.length_read found
        cases taken with
        | nil =>
          rw [same] at shorter
          simp at shorter
        | cons d piece =>
          obtain ⟨rfl, rfl⟩ := List.cons.inj same
          refine ⟨piece, rfl, closes_numeral chars (List.cons_ne_nil _ _), ?_⟩
          intro more follows
          have found := again more follows
          rw [List.cons_append] at found
          rw [readToken_numeral (chars _ List.mem_cons_self), found]
          simp [admitted]
      · simp at h
    · simp at h
  all_goals
    simp only [Option.some.injEq, Prod.mk.injEq] at h
    obtain ⟨rfl, rfl⟩ := h
    exact ⟨[], rfl, ⟨_, rfl, by decide, by decide⟩, fun more _ => rfl⟩

end Tokens

end ImplementorIndex.Json
