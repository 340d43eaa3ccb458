import ImplementorIndex.Proofs.Fragment.Bytewise

/-!
# The search on bytes

The search for an assignment goes from position to position between characters. A piece of filler is
passed in one round, or byte by byte where a character takes several of them, and all bytes of such a
character lie beyond ASCII. Inside a string the index may come to stand in the middle of a character,
because a backslash hides a single byte, or beyond the end. From there it moves on to the next position:
only a byte of ASCII makes the search stop or turn. The main statement says that the search never faults
and finds what the search through the characters finds.
-/

namespace ImplementorIndex.Fragment.Bytewise

open Text (Fault Foreign bytesFrom byteAt cut utf8 findWord size)

section Strings

variable {bytes : List UInt8} {quote b : UInt8} {i : Nat}

theorem closeString_end (h : bytes.length ≤ i) : closeString bytes quote i = .ok i := by
  rw [closeString, if_neg (Nat.not_lt.mpr h)]
  rfl

theorem closeString_step (h : bytes[i]? = some b) :
    closeString bytes quote i = if b = quote then .ok i
      else closeString bytes quote (if b = '\\'.toUInt8 then i + 2 else i + 1) := by
  obtain ⟨inside, _⟩ := List.getElem?_eq_some_iff.mp h
  rw [closeString, if_pos inside, Text.byteAt_of_getElem? h]
  simp only [bind, Except.bind]
  split
  · rfl
  · rfl

variable {mark : Char} (ascii : mark.val.toNat < 128)

include ascii

/-- Inside a string the bytes of a character behind its first one are passed. -/
theorem closeString_rest (before : List Char) (c : Char) (after : List Char) :
    closeString (utf8 (before ++ c :: after)) mark.toUInt8 (size before + 1) =
      closeString (utf8 (before ++ c :: after)) mark.toUInt8 (size (before ++ [c])) := by
  apply Text.passes_rest
  intro i b here far
  rw [closeString_step here, if_neg (far.ne ascii), if_neg (far.ne (by decide))]

theorem closeString_character (before : List Char) {c : Char} (ne : c ≠ mark) (after : List Char) :
    closeString (utf8 (before ++ c :: after)) mark.toUInt8 (size before) =
      closeString (utf8 (before ++ c :: after)) mark.toUInt8
        (if c = '\\' then size before + 2 else size (before ++ [c])) := by
  obtain ⟨first, member, here⟩ := Text.exists_byte before c after
  rw [closeString_step here, if_neg (mt (Text.byte_eq_iff member ascii).mp ne)]
  simp only [Text.byte_eq_iff member (by decide : '\\'.val.toNat < 128)]
  split
  · rfl
  · exact closeString_rest ascii before c after

/-- The content of a string is passed, also where two bytes are stepped over. -/
theorem closeString_guarded {content : List Char} (h : Text.Guarded mark content)
    (still : mark ≠ '\\') (before after : List Char) :
    closeString (utf8 (before ++ (content ++ after))) mark.toUInt8 (size before) =
      closeString (utf8 (before ++ (content ++ after))) mark.toUInt8 (size (before ++ content)) := by
  induction h generalizing before with
  | nil => rw [List.append_nil]
  | @escaped c rest _ ih =>
    -- The first byte of the hidden character goes with the backslash, the others are passed one by one.
    have hidden := closeString_rest ascii (before ++ ['\\']) c (rest ++ after)
    have later := ih (before ++ ['\\', c])
    simp only [List.append_assoc, List.cons_append, List.nil_append] at hidden later ⊢
    rw [closeString_character ascii before still.symm, if_pos rfl, ← later, ← hidden, Text.size_append]
    rfl
  | @plain c rest ne slash _ ih =>
    have later := ih (before ++ [c])
    simp only [List.append_assoc, List.cons_append, List.nil_append] at later ⊢
    rw [closeString_character ascii before ne, if_neg slash, later]

end Strings

section Search

theorem continuesName_of_foreign {b : UInt8} (h : Foreign b) : continuesName b = false := by
  rw [Bool.eq_false_iff]
  intro continues
  simp [continuesName, UInt8.le_iff_toNat_le, ← UInt8.toNat_inj, Char.toUInt8] at continues
  rw [Foreign] at h
  omega

theorem isAlphanum_of_large {c : Char} (h : 128 ≤ c.toNat) : c.isAlphanum = false := by
  have upper : c.isUpper = false := by
    apply decide_eq_false
    intro inside
    have most : c.toNat ≤ 90 := inside.2
    omega
  have lower : c.isLower = false := by
    refine Bool.and_eq_false_iff.mpr (.inr (decide_eq_false ?_))
    intro inside
    have most : c.toNat ≤ 122 := inside
    omega
  have digit : c.isDigit = false := by
    refine Bool.and_eq_false_iff.mpr (.inr (decide_eq_false ?_))
    intro inside
    have most : c.toNat ≤ 57 := inside
    omega
  change ((c.isUpper || c.isLower) || c.isDigit) = false
  rw [upper, lower, digit]
  rfl

theorem continuesName_of_large {c : Char} (h : 128 ≤ c.toNat) : Fragment.continuesName c = false := by
  have ne : ∀ m : Char, m.toNat < 128 → c ≠ m := by
    rintro m ascii rfl
    omega
  simp [Fragment.continuesName, isAlphanum_of_large h, ne '_' (by decide), ne '$' (by decide),
    ne '.' (by decide)]

theorem continuesName_eq {c : Char} {b : UInt8} (h : b ∈ String.utf8EncodeChar c) :
    continuesName b = Fragment.continuesName c := by
  rcases Text.encodeChar_cases c with ⟨small, spelled⟩ | ⟨large, foreign⟩
  · rw [spelled, List.mem_singleton] at h
    subst h
    have known : ∀ n < 128, continuesName (Char.ofNat n).toUInt8 =
        Fragment.continuesName (Char.ofNat n) := by decide
    have same := known c.toNat small
    rwa [Char.ofNat_toNat] at same
  · rw [continuesName_of_foreign (foreign b h), continuesName_of_large large]

/-- The byte before a position is the last one of the character before it. -/
theorem mayStart_eq (before after : List Char) :
    mayStart (utf8 (before ++ after)) (size before) = .ok (Fragment.mayStart before.getLast?) := by
  rcases List.eq_nil_or_concat' before with rfl | ⟨front, c, rfl⟩
  · rfl
  · have width := c.utf8Size_pos
    have position : size (front ++ [c]) = size front + (c.utf8Size - 1) + 1 := by
      rw [Text.size_append, Text.size_cons, Text.size_nil]
      omega
    have inside : c.utf8Size - 1 < (String.utf8EncodeChar c).length := by
      rw [String.length_utf8EncodeChar]
      omega
    have here : (utf8 (front ++ [c] ++ after))[size front + (c.utf8Size - 1)]? =
        some (String.utf8EncodeChar c)[c.utf8Size - 1] := by
      rw [List.append_assoc, Text.getElem?_utf8, List.singleton_append, Text.utf8_cons,
        List.getElem?_append_left inside, List.getElem?_eq_getElem inside]
    rw [position, mayStart, Text.byteAt_of_getElem? here, List.getLast?_concat, Fragment.mayStart,
      ← continuesName_eq (List.getElem_mem inside)]
    rfl

theorem ascii_assignmentStart : ∀ m ∈ assignmentStart, m.val.toNat < 128 := by
  intro m member
  have all : (assignmentStart.all fun m => m.val.toNat < 128) = true := rfl
  exact of_decide_eq_true (List.all_eq_true.mp all m member)

theorem bytesFrom_append (before after : List Char) :
    bytesFrom (utf8 (before ++ after)) (size before) = .ok (utf8 after) := by
  rw [bytesFrom, Text.utf8_append, size, if_pos (by rw [List.length_append]; omega), List.drop_left]

theorem tryStart_found {before : List Char} (admits : Admits before) (rest : List Char) :
    tryStart (before ++ (assignmentStart ++ rest)) (size before) = .ok (.found rest) := by
  have starts : (utf8 assignmentStart).isPrefixOf (utf8 (assignmentStart ++ rest)) = true := by
    rw [Text.utf8_append, List.isPrefixOf_iff_prefix]
    exact List.prefix_append _ _
  have parts := Text.cut_append (before ++ assignmentStart) rest
  rw [Text.size_append, List.append_assoc] at parts
  simp only [tryStart, bytesFrom_append, mayStart_eq, mayStart_iff.mpr admits, parts, bind, Except.bind,
    starts, if_true]
  rfl

theorem tryStart_onward {before after : List Char}
    (start : ¬ (assignmentStart <+: after ∧ Admits before)) :
    tryStart (before ++ after) (size before) = .ok (.onward (size before + 1)) := by
  simp only [tryStart, bytesFrom_append, mayStart_eq, bind, Except.bind, List.isPrefixOf_iff_prefix,
    Text.utf8_prefix_iff ascii_assignmentStart]
  by_cases starts : assignmentStart <+: after
  · rw [if_pos starts, if_neg fun may => start ⟨starts, mayStart_iff.mp may⟩]
    rfl
  · rw [if_neg starts]
    rfl

theorem round_eq (before : List Char) (c : Char) (rest : List Char) :
    round (before ++ c :: rest) (size before) =
      if c = '/' ∧ rest.head? = some '/' then passComment (before ++ c :: rest) ['\n'] (size before) 0
      else if c = '/' ∧ rest.head? = some '*' then
        passComment (before ++ c :: rest) ['*', '/'] (size before + 2) 2
      else if c = '"' ∨ c = '\x27' then
        (closeString (utf8 (before ++ c :: rest)) c.toUInt8 (size before + 1)).map
          fun i => .onward (i + 1)
      else tryStart (before ++ c :: rest) (size before) := by
  obtain ⟨first, member, here⟩ := Text.exists_byte before c rest
  have next : ∀ m : Char, m.val.toNat < 128 →
      (first = '/'.toUInt8 ∧ (utf8 (before ++ c :: rest))[size before + 1]? = some m.toUInt8 ↔
        c = '/' ∧ rest.head? = some m) := by
    intro m ascii
    rw [Text.byte_eq_iff member (by decide)]
    apply and_congr_right
    rintro rfl
    rw [← Text.getElem?_utf8_iff (before ++ ['/']) ascii, Text.size_concat before (by decide),
      List.append_assoc]
    rfl
  simp only [round, Text.byteAt_of_getElem? here, bind, Except.bind, next '/' (by decide),
    next '*' (by decide), Text.byte_eq_iff member (by decide : '"'.val.toNat < 128),
    Text.byte_eq_iff member (by decide : '\x27'.val.toNat < 128)]
  split
  · rfl
  · split
    · rfl
    · split
      · rename_i quote
        have same : first = c.toUInt8 := by
          rcases quote with rfl | rfl
          · exact (Text.byte_eq_iff member (by decide)).mpr rfl
          · exact (Text.byte_eq_iff member (by decide)).mpr rfl
        rw [same]
        rfl
      · rfl

section Rounds

variable {text : List Char} {i next : Nat}

theorem nextAssignment_onward (inside : i < size text) (h : round text i = .ok (.onward next))
    (further : i < next) : nextAssignment text i = nextAssignment text next := by
  rw [nextAssignment, if_pos inside, h]
  dsimp only
  rw [if_pos further]

theorem nextAssignment_never (inside : i < size text) (h : round text i = .ok .never) :
    nextAssignment text i = .ok none := by
  rw [nextAssignment, if_pos inside, h]

theorem nextAssignment_found {rest : List Char} (inside : i < size text)
    (h : round text i = .ok (.found rest)) : nextAssignment text i = .ok (some rest) := by
  rw [nextAssignment, if_pos inside, h]

theorem nextAssignment_end (h : size text ≤ i) : nextAssignment text i = .ok none := by
  rw [nextAssignment, if_neg (Nat.not_lt.mpr h)]

theorem round_foreign {b : UInt8} (here : (utf8 text)[i]? = some b) (h : Foreign b) :
    round text i = .ok (.onward (i + 1)) := by
  obtain ⟨inside, same⟩ := List.getElem?_eq_some_iff.mp here
  have letter : ¬ (utf8 assignmentStart).isPrefixOf ((utf8 text).drop i) = true := by
    rw [List.isPrefixOf_iff_prefix, List.drop_eq_getElem_cons inside, same]
    intro starts
    exact h.ne (by decide : 'i'.val.toNat < 128) (List.cons_prefix_cons.mp starts).1.symm
  have tail : bytesFrom (utf8 text) i = .ok ((utf8 text).drop i) := if_pos (Nat.le_of_lt inside)
  simp only [round, Text.byteAt_of_getElem? here, bind, Except.bind, h.ne (by decide : '/'.val.toNat < 128),
    h.ne (by decide : '"'.val.toNat < 128), h.ne (by decide : '\x27'.val.toNat < 128), false_and, or_self,
    if_false, tryStart, tail, letter]
  rfl

theorem nextAssignment_rest (before : List Char) (c : Char) (after : List Char) :
    nextAssignment (before ++ c :: after) (size before + 1) =
      nextAssignment (before ++ c :: after) (size (before ++ [c])) := by
  apply Text.passes_rest
  intro i b here far
  obtain ⟨inside, _⟩ := List.getElem?_eq_some_iff.mp here
  exact nextAssignment_onward inside (round_foreign here far) (Nat.lt_succ_self i)

end Rounds

section Fillers

variable {before body content after mark : List Char}

theorem passComment_found (more : mark ≠ []) (first : ¬ mark <:+: body ++ mark.dropLast)
    (before after : List Char) (past : Nat) :
    passComment (before ++ (body ++ (mark ++ after))) mark (size before) past =
      .ok (.onward (size before + size body + past)) := by
  simp only [passComment, Text.cut_append, bind, Except.bind, Text.findWord_append more first]
  rfl

theorem passComment_never (more : mark ≠ []) (never : ¬ mark <:+: body) (before : List Char)
    (past : Nat) : passComment (before ++ body) mark (size before) past = .ok .never := by
  simp only [passComment, Text.cut_append, bind, Except.bind, Text.findWord_eq_none more never]
  rfl

theorem size_lt_size (before : List Char) (c : Char) (rest : List Char) :
    size before < size (before ++ c :: rest) := by
  have width := Text.size_pos (List.cons_ne_nil c rest)
  rw [Text.size_append]
  omega

theorem pass_lineComment (line : '\n' ∉ body) (ends : after = [] ∨ after.head? = some '\n') :
    nextAssignment (before ++ ('/' :: '/' :: body ++ after)) (size before) =
      nextAssignment (before ++ ('/' :: '/' :: body ++ after)) (size (before ++ '/' :: '/' :: body)) := by
  have first : ¬ ['\n'] <:+: '/' :: '/' :: body := by
    intro inside
    have member := inside.subset (List.mem_singleton_self '\n')
    simp [line] at member
  have inside := size_lt_size before '/' ('/' :: body ++ after)
  have comment := round_eq before '/' ('/' :: body ++ after)
  rw [if_pos ⟨rfl, rfl⟩] at comment
  rcases ends with rfl | newline
  · rw [List.append_nil] at comment inside ⊢
    rw [nextAssignment_end (Nat.le_refl _)]
    apply nextAssignment_never inside
    rw [comment]
    exact passComment_never (List.cons_ne_nil _ _) first before 0
  · obtain ⟨tail, rfl⟩ := List.head?_eq_some_iff.mp newline
    apply nextAssignment_onward inside
    · rw [Text.size_append]
      exact comment.trans (@passComment_found ('/' :: '/' :: body) ['\n'] (List.cons_ne_nil _ _)
        (by simpa using first) before tail 0)
    · exact size_lt_size before '/' ('/' :: body)

theorem size_two (before : List Char) : size (before ++ ['/', '*']) = size before + 2 := by
  rw [Text.size_append]
  rfl

theorem pass_blockComment (first : ¬ ['*', '/'] <:+: body ++ ['*']) :
    nextAssignment (before ++ ('/' :: '*' :: body ++ ['*', '/'] ++ after)) (size before) =
      nextAssignment (before ++ ('/' :: '*' :: body ++ ['*', '/'] ++ after))
        (size (before ++ ('/' :: '*' :: body ++ ['*', '/']))) := by
  have found := @passComment_found body ['*', '/'] (List.cons_ne_nil _ _) first (before ++ ['/', '*'])
    after 2
  have comment := round_eq before '/' ('*' :: body ++ ['*', '/'] ++ after)
  rw [if_neg (by simp), if_pos ⟨rfl, rfl⟩] at comment
  have width : size (before ++ '/' :: '*' :: (body ++ ['*', '/'])) = size before + 2 + size body + 2 := by
    have marks : '/'.utf8Size = 1 ∧ '*'.utf8Size = 1 := by decide
    simp only [Text.size_append, Text.size_cons, Text.size_nil, marks]
    omega
  rw [size_two] at found
  simp only [List.append_assoc, List.cons_append, List.nil_append] at found comment ⊢
  apply nextAssignment_onward (size_lt_size before '/' _)
  · rw [comment, found, width]
  · exact size_lt_size before '/' _

theorem pass_openComment (never : ¬ ['*', '/'] <:+: body) :
    nextAssignment (before ++ '/' :: '*' :: body) (size before) = .ok none := by
  have comment := round_eq before '/' ('*' :: body)
  rw [if_neg (by simp), if_pos ⟨rfl, rfl⟩] at comment
  have missing := passComment_never (List.cons_ne_nil _ _) never (before ++ ['/', '*']) 2
  rw [size_two, List.append_assoc] at missing
  apply nextAssignment_never (size_lt_size before '/' _)
  exact comment.trans missing

theorem quote_ascii {quote : Char} (mark : quote = '"' ∨ quote = '\x27') :
    quote.val.toNat < 128 ∧ quote ≠ '\\' := by
  rcases mark with rfl | rfl <;> decide

/-- A round at a quote goes on behind the string. -/
theorem round_quote {quote : Char} (mark : quote = '"' ∨ quote = '\x27') (before rest : List Char) :
    round (before ++ quote :: rest) (size before) =
      (closeString (utf8 (before ++ quote :: rest)) quote.toUInt8 (size (before ++ [quote]))).map
        fun i => .onward (i + 1) := by
  have slash : quote ≠ '/' := by rcases mark with rfl | rfl <;> decide
  rw [round_eq, if_neg (slash ·.1), if_neg (slash ·.1), if_pos mark,
    Text.size_concat before (quote_ascii mark).1]

theorem pass_string {quote : Char} (mark : quote = '"' ∨ quote = '\x27')
    (guarded : Text.Guarded quote content) :
    nextAssignment (before ++ (quote :: content ++ [quote] ++ after)) (size before) =
      nextAssignment (before ++ (quote :: content ++ [quote] ++ after))
        (size (before ++ (quote :: content ++ [quote]))) := by
  obtain ⟨ascii, still⟩ := quote_ascii mark
  have passed := closeString_guarded ascii guarded still (before ++ [quote]) (quote :: after)
  have round := round_quote mark before (content ++ quote :: after)
  simp only [List.append_assoc, List.cons_append, List.nil_append] at passed round ⊢
  have closed := (Text.getElem?_utf8_iff (before ++ quote :: content) ascii).mpr
    (List.head?_cons (l := after))
  have width := Text.size_concat (before ++ quote :: content) ascii
  simp only [List.append_assoc, List.cons_append] at closed width
  rw [passed, closeString_step closed, if_pos rfl] at round
  apply nextAssignment_onward (size_lt_size before quote _)
  · rw [round, width]
    rfl
  · exact size_lt_size before quote _

theorem pass_openString {quote : Char} {last : List Char} (mark : quote = '"' ∨ quote = '\x27')
    (guarded : Text.Guarded quote content) (ends : last = [] ∨ last = ['\\']) :
    nextAssignment (before ++ (quote :: content ++ last)) (size before) = .ok none := by
  obtain ⟨ascii, still⟩ := quote_ascii mark
  have passed := closeString_guarded ascii guarded still (before ++ [quote]) last
  have round := round_quote mark before (content ++ last)
  simp only [List.append_assoc, List.cons_append, List.nil_append] at passed round ⊢
  -- A backslash at the end of the text hides nothing, and the index comes to stand beyond the end.
  have beyond : ∃ i, size (before ++ quote :: (content ++ last)) ≤ i ∧
      closeString (utf8 (before ++ quote :: (content ++ last))) quote.toUInt8
        (size (before ++ quote :: content)) = .ok i := by
    rcases ends with rfl | rfl
    · rw [List.append_nil]
      exact ⟨_, Nat.le_refl _, closeString_end (Nat.le_refl _)⟩
    · have slash := closeString_character ascii (before ++ quote :: content) still.symm []
      have width := Text.size_concat (before ++ quote :: content) (by decide : '\\'.val.toNat < 128)
      rw [if_pos rfl] at slash
      simp only [List.append_assoc, List.cons_append] at slash width
      rw [slash, width]
      refine ⟨_, Nat.le_succ _, closeString_end ?_⟩
      rw [← size, width]
      omega
  obtain ⟨i, far, closed⟩ := beyond
  rw [passed, closed] at round
  rw [nextAssignment_onward (size_lt_size before quote _) round]
  · exact nextAssignment_end (Nat.le_succ_of_le far)
  · have inside := size_lt_size before quote (content ++ last)
    omega

theorem pass_character {c : Char} (double : c ≠ '"') (single : c ≠ '\x27')
    (comment : ∀ mark ∈ commentMarks, ¬ mark <+: c :: after)
    (start : ¬ (assignmentStart <+: c :: after ∧ Admits before)) :
    nextAssignment (before ++ c :: after) (size before) =
      nextAssignment (before ++ c :: after) (size (before ++ [c])) := by
  have line : ∀ m, ['/', m] ∈ commentMarks → ¬ (c = '/' ∧ after.head? = some m) := by
    rintro m listed ⟨rfl, next⟩
    obtain ⟨tail, rfl⟩ := List.head?_eq_some_iff.mp next
    exact comment _ listed ⟨tail, rfl⟩
  have round := round_eq before c after
  rw [if_neg (line '/' (by decide)), if_neg (line '*' (by decide)), if_neg (not_or.mpr ⟨double, single⟩),
    tryStart_onward start] at round
  rw [← nextAssignment_rest]
  exact nextAssignment_onward (size_lt_size before c after) round (Nat.lt_succ_self _)

/-- A piece of filler is passed, in one round or byte by byte. -/
theorem nextAssignment_filler {piece : List Char} (h : Filler before piece after) :
    nextAssignment (before ++ (piece ++ after)) (size before) =
      nextAssignment (before ++ (piece ++ after)) (size (before ++ piece)) := by
  cases h with
  | lineComment line ends => exact pass_lineComment line ends
  | blockComment first => exact pass_blockComment first
  | openComment never =>
    rw [List.append_nil, nextAssignment_end (Nat.le_refl _)]
    exact pass_openComment never
  | string mark guarded => exact pass_string mark guarded
  | openString mark guarded ends =>
    rw [List.append_nil, nextAssignment_end (Nat.le_refl _)]
    exact pass_openString mark guarded ends
  | character double single comment start => exact pass_character double single comment start

end Fillers

/-- By induction on the length of what is left: an assignment starts, or a piece of filler is passed. -/
theorem nextAssignment_eq (before after : List Char) :
    nextAssignment (before ++ after) (size before) =
      .ok (Fragment.nextAssignment (.code before.getLast?) after) := by
  induction length : after.length using Nat.strongRecOn generalizing before after with
  | ind length ih =>
    subst length
    by_cases start : assignmentStart <+: after ∧ Admits before
    · obtain ⟨⟨rest, rfl⟩, admits⟩ := start
      have found : round (before ++ (assignmentStart ++ rest)) (size before) = .ok (.found rest) := by
        rw [← tryStart_found admits rest]
        exact round_eq before 'i' _
      rw [Fragment.nextAssignment_start admits]
      exact nextAssignment_found (size_lt_size before 'i' _) found
    · by_cases empty : after = []
      · subst empty
        rw [List.append_nil, nextAssignment_end (Nat.le_refl _)]
        rfl
      · obtain ⟨piece, rest, rfl, more, passed⟩ := exists_filler empty start
        have shorter : rest.length < (piece ++ rest).length := by
          have width := List.length_pos_iff.mpr more
          rw [List.length_append]
          omega
        have later := ih rest.length shorter (before ++ piece) rest rfl
        rw [List.append_assoc] at later
        rw [nextAssignment_filler passed, Fragment.nextAssignment_filler passed, later]

end Search

end ImplementorIndex.Fragment.Bytewise
