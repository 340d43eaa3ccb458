import ImplementorIndex.Proofs.Order

/-!
# Texts as bytes

A program that scans a text may work on the bytes that spell it: look at the byte at an index, and cut
the text at one. Both fault beyond the end, and a cut also faults inside a character. A character of
ASCII is spelled by one byte, which is its code point, and all bytes of any other character lie beyond
ASCII. So a byte of ASCII is a character wherever it stands, and before and behind it a text can be cut.
-/

namespace ImplementorIndex.Text

def utf8 (text : List Char) : List UInt8 := text.flatMap String.utf8EncodeChar

def size (text : List Char) : Nat := (utf8 text).length

inductive Fault where
  /-- an index beyond the end -/
  | range
  /-- a cut inside a character -/
  | boundary
  /-- a count below zero -/
  | underflow
  /-- a round of a loop that consumes nothing -/
  | stalled
deriving DecidableEq

def byteAt (bytes : List UInt8) (i : Nat) : Except Fault UInt8 :=
  match bytes[i]? with
  | some b => .ok b
  | none => .error .range

def bytesFrom (bytes : List UInt8) (i : Nat) : Except Fault (List UInt8) :=
  if i ≤ bytes.length then .ok (bytes.drop i) else .error .range

/-- The two parts of a text before and behind a number of bytes. -/
def cut : List Char → Nat → Except Fault (List Char × List Char)
  | text, 0 => .ok ([], text)
  | [], _ + 1 => .error .range
  | c :: rest, i + 1 =>
    if c.utf8Size ≤ i + 1 then
      (cut rest (i + 1 - c.utf8Size)).map fun parts => (c :: parts.1, parts.2)
    else .error .boundary

/-- The number of bytes before the first place where a word stands. -/
def findWord (word : List Char) : List Char → Option Nat
  | [] => if word = [] then some 0 else none
  | c :: rest =>
    if word.isPrefixOf (c :: rest) then some 0 else (findWord word rest).map (c.utf8Size + ·)

/-- A byte that spells no character of ASCII. -/
def Foreign (b : UInt8) : Prop := 128 ≤ b.toNat

theorem encodeChar_cases (c : Char) :
    (c.val.toNat < 128 ∧ String.utf8EncodeChar c = [c.toUInt8]) ∨
    (128 ≤ c.val.toNat ∧ ∀ b ∈ String.utf8EncodeChar c, Foreign b) := by
  have spelled := spelling_encodeChar c
  generalize String.utf8EncodeChar c = bytes at spelled ⊢
  have code : c.toUInt8 = .ofNat c.val.toNat := by
    rw [← UInt32.toUInt8_ofNat', UInt32.ofNat_toNat]
    rfl
  cases spelled with
  | one most => exact .inl ⟨by omega, by rw [code]⟩
  | two least most =>
    refine .inr ⟨by omega, ?_⟩
    simp only [List.forall_mem_cons, Foreign, UInt8.toNat_ofNat']
    refine ⟨by omega, by omega, by simp⟩
  | three least most =>
    refine .inr ⟨by omega, ?_⟩
    simp only [List.forall_mem_cons, Foreign, UInt8.toNat_ofNat']
    refine ⟨by omega, by omega, by omega, by simp⟩
  | four least most =>
    refine .inr ⟨by omega, ?_⟩
    simp only [List.forall_mem_cons, Foreign, UInt8.toNat_ofNat']
    refine ⟨by omega, by omega, by omega, by omega, by simp⟩

theorem toNat_toUInt8 {m : Char} (ascii : m.val.toNat < 128) : m.toUInt8.toNat = m.val.toNat := by
  rw [Char.toUInt8, UInt32.toNat_toUInt8, Nat.mod_eq_of_lt (by omega)]

theorem Foreign.ne {b : UInt8} (h : Foreign b) {m : Char} (ascii : m.val.toNat < 128) :
    b ≠ m.toUInt8 := by
  rintro rfl
  rw [Foreign, toNat_toUInt8 ascii] at h
  omega

/-- A byte of a character is a character of ASCII just when the character is. -/
theorem byte_eq_iff {c m : Char} {b : UInt8} (h : b ∈ String.utf8EncodeChar c)
    (ascii : m.val.toNat < 128) : b = m.toUInt8 ↔ c = m := by
  rcases encodeChar_cases c with ⟨small, spelled⟩ | ⟨large, foreign⟩
  · rw [spelled, List.mem_singleton] at h
    subst h
    constructor
    · intro same
      apply Char.val_inj.mp
      rw [← UInt32.toNat_inj, ← toNat_toUInt8 small, ← toNat_toUInt8 ascii, same]
    · rintro rfl
      rfl
  · constructor
    · intro same
      exact absurd same ((foreign b h).ne ascii)
    · rintro rfl
      omega

theorem encodeChar_ascii {c : Char} (h : c.val.toNat < 128) :
    String.utf8EncodeChar c = [c.toUInt8] := by
  rcases encodeChar_cases c with ⟨_, spelled⟩ | ⟨large, _⟩
  · exact spelled
  · omega

theorem fromUTF8?_eq_some_iff {data : ByteArray} {text : String} :
    String.fromUTF8? data = some text ↔ bytes text = data.data.toList := by
  rw [bytes, Array.toList_inj, ← ByteArray.ext_iff, String.toUTF8_eq_toByteArray]
  unfold String.fromUTF8?
  split
  · rw [Option.some.injEq]
    constructor
    · rintro rfl
      rfl
    · rintro rfl
      rfl
  · rename_i invalid
    constructor
    · intro absent
      cases absent
    · rintro rfl
      exact absurd text.isValidUTF8 invalid

section Positions

variable {before after : List Char}

@[simp] theorem utf8_nil : utf8 [] = [] := rfl

@[simp] theorem utf8_cons (c : Char) (text : List Char) :
    utf8 (c :: text) = String.utf8EncodeChar c ++ utf8 text := rfl

@[simp] theorem utf8_append (text more : List Char) :
    utf8 (text ++ more) = utf8 text ++ utf8 more := List.flatMap_append

@[simp] theorem size_nil : size [] = 0 := rfl

@[simp] theorem size_cons (c : Char) (text : List Char) : size (c :: text) = c.utf8Size + size text := by
  rw [size, utf8_cons, List.length_append, String.length_utf8EncodeChar, size]

@[simp] theorem size_append (text more : List Char) : size (text ++ more) = size text + size more := by
  rw [size, utf8_append, List.length_append, size, size]

theorem size_pos {text : List Char} (more : text ≠ []) : 0 < size text := by
  cases text with
  | nil => exact absurd rfl more
  | cons c rest =>
    have first := c.utf8Size_pos
    rw [size_cons]
    omega

theorem utf8Size_ascii {c : Char} (h : c.val.toNat < 128) : c.utf8Size = 1 := by
  rw [← String.length_utf8EncodeChar, encodeChar_ascii h, List.length_singleton]

theorem size_concat (text : List Char) {c : Char} (h : c.val.toNat < 128) :
    size (text ++ [c]) = size text + 1 := by
  rw [size_append, size_cons, size_nil, utf8Size_ascii h]

theorem getElem?_utf8 (before after : List Char) (k : Nat) :
    (utf8 (before ++ after))[size before + k]? = (utf8 after)[k]? := by
  rw [utf8_append, size, List.getElem?_append_right (Nat.le_add_right _ _), Nat.add_sub_cancel_left]

theorem byteAt_of_getElem? {bytes : List UInt8} {i : Nat} {b : UInt8} (h : bytes[i]? = some b) :
    byteAt bytes i = .ok b := by
  rw [byteAt, h]

/-- A text can be cut between any two of its characters. -/
theorem cut_append (before after : List Char) :
    cut (before ++ after) (size before) = .ok (before, after) := by
  induction before with
  | nil => cases after <;> rfl
  | cons c before ih =>
    have first := c.utf8Size_pos
    have whole : size (c :: before) = c.utf8Size - 1 + size before + 1 := by
      rw [size_cons]
      omega
    have left : c.utf8Size - 1 + size before + 1 - c.utf8Size = size before := by omega
    rw [whole, List.cons_append, cut, if_pos (by omega), left, ih]
    rfl

-- Inside a character and beyond the end there is no cut.
example : cut ['é', 'a'] 1 = .error .boundary ∧ cut ['é', 'a'] 4 = .error .range := by decide

/-- Behind the first byte of a character all its bytes are foreign. -/
theorem exists_utf8_cons (c : Char) (rest : List Char) :
    ∃ first more, first ∈ String.utf8EncodeChar c ∧ utf8 (c :: rest) = first :: (more ++ utf8 rest) ∧
      (∀ b ∈ more, Foreign b) ∧ c.utf8Size = more.length + 1 := by
  rw [utf8_cons, ← String.length_utf8EncodeChar]
  rcases encodeChar_cases c with ⟨_, spelled⟩ | ⟨_, foreign⟩
  · rw [spelled]
    exact ⟨c.toUInt8, [], List.mem_cons_self, rfl, by simp, rfl⟩
  · cases spelled : String.utf8EncodeChar c with
    | nil => exact absurd spelled String.utf8EncodeChar_ne_nil
    | cons first more =>
      rw [spelled, List.forall_mem_cons] at foreign
      exact ⟨first, more, List.mem_cons_self, rfl, foreign.2, rfl⟩

theorem eq_nil_of_ascii {c : Char} {more : List UInt8} (ascii : c.val.toNat < 128)
    (width : c.utf8Size = more.length + 1) : more = [] := by
  rw [utf8Size_ascii ascii] at width
  exact List.eq_nil_of_length_eq_zero (by omega)

theorem exists_byte (before : List Char) (c : Char) (after : List Char) :
    ∃ first ∈ String.utf8EncodeChar c, (utf8 (before ++ c :: after))[size before]? = some first := by
  obtain ⟨first, more, member, spelled, _⟩ := exists_utf8_cons c after
  refine ⟨first, member, ?_⟩
  rw [← Nat.add_zero (size before), getElem?_utf8, spelled]
  rfl

/-- The byte at a position is a character of ASCII just when the text goes on with it. -/
theorem getElem?_utf8_iff (before : List Char) {after : List Char} {m : Char}
    (ascii : m.val.toNat < 128) :
    (utf8 (before ++ after))[size before]? = some m.toUInt8 ↔ after.head? = some m := by
  cases after with
  | nil => simp [size]
  | cons c rest =>
    obtain ⟨first, member, here⟩ := exists_byte before c rest
    rw [here, List.head?_cons, Option.some.injEq, Option.some.injEq, byte_eq_iff member ascii]

/-- What takes single foreign bytes off a list takes any number of them. -/
theorem takes_foreign {α : Type} (run : Nat → List UInt8 → α)
    (step : ∀ i b rest, Foreign b → run i (b :: rest) = run (i + 1) rest) {foreign : List UInt8}
    (h : ∀ b ∈ foreign, Foreign b) (i : Nat) (rest : List UInt8) :
    run i (foreign ++ rest) = run (i + foreign.length) rest := by
  induction foreign generalizing i with
  | nil => rfl
  | cons b foreign ih =>
    rw [List.forall_mem_cons] at h
    rw [List.cons_append, step i b _ h.1, ih h.2, List.length_cons, Nat.add_assoc, Nat.add_comm 1]

/-- What passes single foreign bytes passes any number of them. -/
theorem passes_foreign {α : Type} {bytes front foreign back : List UInt8} (run : Nat → α)
    (step : ∀ i b, bytes[i]? = some b → Foreign b → run i = run (i + 1))
    (same : bytes = front ++ (foreign ++ back)) (h : ∀ b ∈ foreign, Foreign b) :
    run front.length = run (front.length + foreign.length) := by
  induction foreign generalizing front with
  | nil => rfl
  | cons b foreign ih =>
    have here : bytes[front.length]? = some b := by simp [same]
    have later := @ih (front ++ [b]) (by rw [same]; simp) fun d member => h d (List.mem_cons_of_mem b member)
    rw [List.length_append, List.length_singleton] at later
    rw [step _ b here (h b List.mem_cons_self), later, List.length_cons, Nat.add_assoc,
      Nat.add_comm 1 foreign.length]

/-- What passes single foreign bytes passes the bytes of a character behind its first one. -/
theorem passes_rest {α : Type} (run : Nat → α) (before : List Char) (c : Char) (after : List Char)
    (step : ∀ i b, (utf8 (before ++ c :: after))[i]? = some b → Foreign b → run i = run (i + 1)) :
    run (size before + 1) = run (size (before ++ [c])) := by
  obtain ⟨first, more, _, spelled, foreign, width⟩ := exists_utf8_cons c after
  have split : utf8 (before ++ c :: after) = (utf8 before ++ [first]) ++ (more ++ utf8 after) := by
    rw [utf8_append, spelled, List.append_cons]
  have passed := passes_foreign run step split foreign
  rw [List.length_append, List.length_singleton] at passed
  rw [size_append, size_cons, size_nil, width, Nat.add_zero, Nat.add_comm more.length 1, ← Nat.add_assoc]
  exact passed

end Positions

section Words

variable {word text body : List Char}

/-- A word of ASCII stands where its bytes do. -/
theorem utf8_prefix_iff (ascii : ∀ m ∈ word, m.val.toNat < 128) :
    utf8 word <+: utf8 text ↔ word <+: text := by
  induction word generalizing text with
  | nil => simp
  | cons m word ih =>
    rw [List.forall_mem_cons] at ascii
    cases text with
    | nil => simp [encodeChar_ascii ascii.1]
    | cons c rest =>
      obtain ⟨first, more, member, spelled, _, width⟩ := exists_utf8_cons c rest
      rw [spelled, utf8_cons, encodeChar_ascii ascii.1, List.singleton_append, List.cons_prefix_cons,
        List.cons_prefix_cons, eq_comm, byte_eq_iff member ascii.1, @eq_comm _ m c]
      apply and_congr_right
      rintro rfl
      obtain rfl := eq_nil_of_ascii ascii.1 width
      rw [List.nil_append, ih ascii.2]

/-- Where a byte of ASCII stands in the spelling of a text, the text can be cut around it. -/
theorem exists_of_utf8_eq_append {m : Char} (ascii : m.val.toNat < 128) {front back : List UInt8}
    (same : utf8 text = front ++ m.toUInt8 :: back) :
    ∃ before after, text = before ++ m :: after ∧ utf8 before = front ∧ utf8 after = back := by
  induction text generalizing front with
  | nil => simp at same
  | cons c rest ih =>
    rw [utf8_cons, List.append_eq_append_iff] at same
    rcases same with ⟨later, rfl, behind⟩ | ⟨own, spelled, behind⟩
    · obtain ⟨before, after, rfl, rfl, rfl⟩ := ih behind
      exact ⟨c :: before, after, rfl, rfl, rfl⟩
    · cases own with
      | nil =>
        obtain ⟨before, after, rfl, none, rfl⟩ := @ih [] behind.symm
        refine ⟨c :: before, after, rfl, ?_, rfl⟩
        rw [utf8_cons, none, spelled, List.append_nil, List.append_nil]
      | cons byte more =>
        obtain ⟨rfl, rfl⟩ := List.cons.inj behind
        have member : m.toUInt8 ∈ String.utf8EncodeChar c := by simp [spelled]
        obtain rfl := (byte_eq_iff member ascii).mp rfl
        -- The character is this one byte, so nothing stands before it or behind it.
        have width := congrArg List.length spelled
        rw [String.length_utf8EncodeChar, utf8Size_ascii ascii, List.length_append,
          List.length_cons] at width
        obtain rfl := List.eq_nil_of_length_eq_zero (show front.length = 0 by omega)
        obtain rfl := List.eq_nil_of_length_eq_zero (show more.length = 0 by omega)
        exact ⟨[], rest, rfl, rfl, rfl⟩

theorem findWord_eq_none (more : word ≠ []) (never : ¬ word <:+: text) : findWord word text = none := by
  induction text with
  | nil => rw [findWord, if_neg more]
  | cons c rest ih =>
    rw [List.infix_cons_iff, not_or, ← List.isPrefixOf_iff_prefix] at never
    rw [findWord, if_neg never.1, ih never.2]
    rfl

/-- A word is found at the first place where it stands. -/
theorem findWord_append (more : word ≠ []) (first : ¬ word <:+: body ++ word.dropLast)
    (after : List Char) : findWord word (body ++ (word ++ after)) = some (size body) := by
  induction body with
  | nil =>
    cases word with
    | nil => exact absurd rfl more
    | cons m word =>
      have here : (m :: word).isPrefixOf (m :: (word ++ after)) = true :=
        List.isPrefixOf_iff_prefix.mpr ⟨after, rfl⟩
      rw [List.nil_append, List.cons_append, findWord, if_pos here, size_nil]
  | cons c body ih =>
    rw [List.cons_append, List.infix_cons_iff, not_or] at first
    have before : ¬ word.isPrefixOf (c :: (body ++ (word ++ after))) = true := by
      intro here
      rw [List.isPrefixOf_iff_prefix] at here
      apply first.1
      -- The word is no longer than what the text begins with, up to the word's last character.
      apply List.prefix_of_prefix_length_le here
      · obtain ⟨last, split⟩ : ∃ last, word = word.dropLast ++ [last] :=
          ⟨_, (List.dropLast_concat_getLast more).symm⟩
        refine ⟨[last] ++ after, ?_⟩
        nth_rewrite 2 [split]
        simp
      · have width := List.length_pos_iff.mpr more
        simp only [List.length_cons, List.length_append, List.length_dropLast]
        omega
    rw [List.cons_append, findWord, if_neg before, ih first.2, Option.map_some, size_cons]

end Words

end ImplementorIndex.Text
