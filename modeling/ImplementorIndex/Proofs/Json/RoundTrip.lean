import ImplementorIndex.Json.Reader
import ImplementorIndex.Json.Writer

/-!
# Written values are read back

The compact form of a value is read as that value. A text spells tokens when these are cut off the
front of it, whatever follows; a text stands for a value when it spells tokens that take the reader
from any place where a value may come to the place behind that value. Both are closed under the ways
in which the writer puts texts together, so what can be written from strings, arrays and objects can
be read. Numerals are left out: what follows a numeral may prolong it.
-/

namespace ImplementorIndex.Json

section Strings

theorem hexValue?_hexDigit {n : Nat} (h : n < 16) : hexValue? (hexDigit n) = some n := by
  have all : ∀ n : Fin 16, hexValue? (hexDigit n) = some n.val := by decide
  exact all ⟨n, h⟩

theorem readHex4_control {n : Nat} (h : n < 0x20) (rest : List Char) :
    readHex4 ('0' :: '0' :: hexDigit (n / 16) :: hexDigit (n % 16) :: rest) = some (n, rest) := by
  have zero : hexValue? '0' = some 0 := by decide
  have high := hexValue?_hexDigit (n := n / 16) (by omega)
  have low := hexValue?_hexDigit (n := n % 16) (by omega)
  simp only [readHex4, zero, high, low, Option.bind_eq_bind, Option.bind_some, Option.pure_def]
  congr 2
  omega

theorem readEscape_control {c : Char} (h : c.toNat < 0x20) (rest : List Char) :
    readEscape ('u' :: '0' :: '0' :: hexDigit (c.toNat / 16) :: hexDigit (c.toNat % 16) :: rest) =
      some (c, rest) := by
  have trailing : isTrailing c.toNat = false := by
    simp only [isTrailing, Bool.and_eq_false_iff, decide_eq_false_iff_not]
    omega
  have leading : isLeading c.toNat = false := by
    simp only [isLeading, Bool.and_eq_false_iff, decide_eq_false_iff_not]
    omega
  simp [readEscape, readCode, readHex4_control h, trailing, leading, Char.ofNat_toNat]

theorem readString_quote (rest : List Char) : readString ('"' :: rest) = some ([], rest) := by
  rw [readString]
  simp

theorem readString_escape {text after : List Char} {found : Char}
    (h : readEscape text = some (found, after)) :
    readString ('\\' :: text) = (readString after).map fun read => (found :: read.1, read.2) := by
  rw [readString]
  simp only [Char.reduceEq, if_false, if_true]
  split
  · rename_i failed
    simp [h] at failed
  · rename_i other
    simp only [h, Option.some.injEq, Prod.mk.injEq] at other
    obtain ⟨rfl, rfl⟩ := other
    rfl

theorem readString_plain {c : Char} (quote : c ≠ '"') (slash : c ≠ '\\') (visible : ¬ c.toNat < 0x20)
    (rest : List Char) :
    readString (c :: rest) = (readString rest).map fun read => (c :: read.1, read.2) := by
  rw [readString, if_neg quote, if_neg slash, if_neg visible]

/-- A character is read back, however it was written. -/
theorem readString_writeChar (c : Char) (rest : List Char) :
    readString (writeChar c ++ rest) = (readString rest).map fun read => (c :: read.1, read.2) := by
  unfold writeChar
  split
  case h_8 quote slash _ _ _ _ _ =>
    split
    · rename_i control
      exact readString_escape (readEscape_control control rest)
    · rename_i visible
      exact readString_plain quote slash visible rest
  all_goals exact readString_escape rfl

theorem readString_writeString (text rest : List Char) :
    readString (text.flatMap writeChar ++ '"' :: rest) = some (text, rest) := by
  induction text with
  | nil => exact readString_quote rest
  | cons c text ih =>
    rw [List.flatMap_cons, List.append_assoc, readString_writeChar, ih]
    rfl

end Strings

section Tokens

/-- A text spells tokens: they are cut off the front of it, whatever follows. -/
def Spells (list : List Token) (text : List Char) : Prop :=
  ∀ rest, tokens (text ++ rest) = (tokens rest).map (list ++ ·)

theorem spells_nil : Spells [] [] := by
  intro rest
  simp

theorem Spells.append {left right : List Token} {text more : List Char} (h : Spells left text)
    (h' : Spells right more) : Spells (left ++ right) (text ++ more) := by
  intro rest
  rw [List.append_assoc, h, h', Option.map_map]
  congr 1
  funext list
  exact (List.append_assoc left right list).symm

theorem tokens_cons {c : Char} {text rest : List Char} {token : Token} (visible : isSpace c = false)
    (h : readToken c text = some (token, rest)) :
    tokens (c :: text) = (tokens rest).map (token :: ·) := by
  rw [tokens, visible]
  simp only [Bool.false_eq_true, if_false]
  split
  · rename_i failed
    simp [h] at failed
  · rename_i other
    simp only [h, Option.some.injEq, Prod.mk.injEq] at other
    obtain ⟨rfl, rfl⟩ := other
    rfl

theorem spells_of_readToken {c : Char} {text : List Char} {token : Token}
    (visible : isSpace c = false)
    (h : ∀ rest, readToken c (text ++ rest) = some (token, rest)) : Spells [token] (c :: text) := by
  intro rest
  exact tokens_cons visible (h rest)

theorem spells_string (text : String) : Spells [.string text] (writeString text) := by
  refine spells_of_readToken (by decide) ?_
  intro rest
  simp [readToken, readString_writeString]

theorem spells_comma : Spells [.comma] [','] := spells_of_readToken (by decide) fun _ => rfl

theorem spells_colon : Spells [.colon] [':'] := spells_of_readToken (by decide) fun _ => rfl

theorem Spells.brackets {list : List Token} {text : List Char} (h : Spells list text) :
    Spells (.openArray :: list ++ [.closeArray]) ('[' :: text ++ [']']) :=
  ((spells_of_readToken (by decide) fun _ => rfl : Spells [.openArray] ['[']).append h).append
    (spells_of_readToken (by decide) fun _ => rfl)

theorem Spells.braces {list : List Token} {text : List Char} (h : Spells list text) :
    Spells (.openObject :: list ++ [.closeObject]) ('\x7b' :: text ++ ['\x7d']) :=
  ((spells_of_readToken (by decide) fun _ => rfl : Spells [.openObject] ['\x7b']).append h).append
    (spells_of_readToken (by decide) fun _ => rfl)

end Tokens

section Values

/-- The written form of a value leads the reader past that value, where containers may still be nested
so many deep. -/
def Readable (depth : Nat) (value : Value) : Prop :=
  ∃ list, Spells list value.write ∧ ∀ stack, stack.length + depth < depthLimit →
    (State.value stack).takeAll list = some (complete value stack)

theorem readable_string (depth : Nat) (text : String) : Readable depth (.string text) :=
  ⟨[.string text], spells_string text, fun _ _ => rfl⟩

/-- Behind an opening bracket a value is taken as anywhere else. -/
theorem takeAll_arrayStart {list : List Token} {items : List Value} {stack : List Frame}
    (h : (State.value (.array [] :: stack)).takeAll list = some (.afterItem items stack)) :
    (State.arrayStart stack).takeAll list = some (.afterItem items stack) := by
  cases list with
  | nil => simp [State.takeAll] at h
  | cons token rest =>
    cases token with
    | closeArray => simp [State.takeAll, State.take, beginValue] at h
    | _ => exact h

theorem readable_items {depth : Nat} {item : Value} {items : List Value}
    (h : ∀ value ∈ item :: items, Readable depth value) :
    ∃ list, Spells list (joinCommas (writeItems (item :: items))) ∧
      ∀ stack done, stack.length + (depth + 1) < depthLimit →
        (State.value (.array done :: stack)).takeAll list =
          some (.afterItem (items.reverse ++ item :: done) stack) := by
  -- The items read so far are kept the latest first, so the induction is over those still to come.
  induction items generalizing item with
  | nil =>
    obtain ⟨list, spells, takes⟩ := h item List.mem_cons_self
    refine ⟨list, spells, ?_⟩
    intro stack done bound
    exact takes (.array done :: stack) (by rw [List.length_cons]; omega)
  | cons next items ih =>
    obtain ⟨list, spells, takes⟩ := h item List.mem_cons_self
    obtain ⟨later, spellsLater, takesLater⟩ :=
      ih fun value hm => h value (List.mem_cons_of_mem _ hm)
    refine ⟨list ++ ([.comma] ++ later), spells.append (spells_comma.append spellsLater), ?_⟩
    intro stack done bound
    have first := takes (.array done :: stack) (by rw [List.length_cons]; omega)
    rw [State.takeAll_append, first]
    simpa [State.takeAll, State.take, complete] using takesLater stack (item :: done) bound

theorem readable_array {depth : Nat} {items : List Value}
    (h : ∀ item ∈ items, Readable depth item) : Readable (depth + 1) (.array items) := by
  cases items with
  | nil =>
    refine ⟨_, spells_nil.brackets, ?_⟩
    intro stack bound
    have fits : stack.length + 1 < depthLimit := by omega
    simp [State.takeAll, State.take, beginValue, openWithin, fits]
  | cons item items =>
    obtain ⟨list, spells, takes⟩ := readable_items h
    refine ⟨_, spells.brackets, ?_⟩
    intro stack bound
    have fits : stack.length + 1 < depthLimit := by omega
    have inside := takeAll_arrayStart (takes stack [] bound)
    simp only [List.cons_append, State.takeAll, State.take, beginValue, openWithin, fits, if_true,
      Option.bind_eq_bind, Option.bind_some]
    rw [State.takeAll_append, inside]
    simp [State.takeAll, State.take]

theorem readable_members {depth : Nat} {name : String} {value : Value}
    {members : List (String × Value)}
    (h : ∀ member ∈ (name, value) :: members, Readable depth member.2) :
    ∃ list, Spells (.string name :: list) (joinCommas (writeMembers ((name, value) :: members))) ∧
      ∀ stack done, stack.length + (depth + 1) < depthLimit →
        (State.memberColon done name stack).takeAll list =
          some (.afterMember (((name, value) :: members).foldl
            (fun rows row => Rows.put row.1 row.2 rows) done) stack) := by
  induction members generalizing name value with
  | nil =>
    obtain ⟨list, spells, takes⟩ := h (name, value) List.mem_cons_self
    refine ⟨.colon :: list, (spells_string name).append (spells_colon.append spells), ?_⟩
    intro stack done bound
    exact takes (.member done name :: stack) (by rw [List.length_cons]; omega)
  | cons next members ih =>
    obtain ⟨list, spells, takes⟩ := h (name, value) List.mem_cons_self
    obtain ⟨later, spellsLater, takesLater⟩ :=
      ih fun member hm => h member (List.mem_cons_of_mem _ hm)
    refine ⟨.colon :: (list ++ ([.comma] ++ .string next.1 :: later)), ?_, ?_⟩
    · have written := (spells_string name).append (spells_colon.append
        (spells.append (spells_comma.append spellsLater)))
      simpa [writeMembers, joinCommas] using written
    · intro stack done bound
      have first := takes (.member done name :: stack) (by rw [List.length_cons]; omega)
      have rest := takesLater stack (Rows.put name value done) bound
      simp only [State.takeAll, State.take, Option.bind_eq_bind, Option.bind_some]
      rw [State.takeAll_append, first]
      simpa [State.takeAll, State.take, complete] using rest

theorem readable_object {depth : Nat} {members : List (String × Value)}
    (distinct : (Rows.keys members).Nodup) (h : ∀ member ∈ members, Readable depth member.2) :
    Readable (depth + 1) (.object members) := by
  cases members with
  | nil =>
    refine ⟨_, spells_nil.braces, ?_⟩
    intro stack bound
    have fits : stack.length + 1 < depthLimit := by omega
    simp [State.takeAll, State.take, beginValue, openWithin, fits]
  | cons member members =>
    obtain ⟨list, spells, takes⟩ := readable_members h
    refine ⟨_, spells.braces, ?_⟩
    intro stack bound
    have fits : stack.length + 1 < depthLimit := by omega
    have inside := takes stack [] bound
    rw [Rows.foldl_put_of_nodup (by simpa using distinct)] at inside
    simp only [List.cons_append, State.takeAll, State.take, beginValue, openWithin, fits, if_true,
      Option.bind_eq_bind, Option.bind_some]
    rw [State.takeAll_append, inside]
    simp [State.takeAll, State.take]

/-- What can be written without numerals, and is not nested too deep, is read back. -/
theorem Readable.read {depth : Nat} {value : Value} (h : Readable depth value)
    (shallow : depth < depthLimit) : read value.write = some value := by
  obtain ⟨list, spells, takes⟩ := h
  have cut : tokens value.write = some list := by
    have all := spells []
    rw [List.append_nil] at all
    rw [all, tokens]
    simp
  rw [Json.read, cut]
  simp [ofTokens, takes [] (by simpa using shallow), complete]

end Values

end ImplementorIndex.Json
