import ImplementorIndex.Proofs.Fragment.BytewiseSearch

/-!
# Scanning bytes without faults

A literal and an expression end at bytes of ASCII, where the text can be cut, and each reading of an
assignment leaves fewer bytes than there were. So on every text the scanners that work on bytes come to
the results of those that run through the characters, and decoding a fragment never faults.
-/

namespace ImplementorIndex.Fragment.Bytewise

open Text (Fault Foreign cut utf8 size)

section Literals

theorem closeLiteral_foreign {foreign : List UInt8} (h : ∀ b ∈ foreign, Foreign b) (i : Nat)
    (rest : List UInt8) :
    closeLiteral false i (foreign ++ rest) = closeLiteral false (i + foreign.length) rest := by
  apply Text.takes_foreign _ _ h
  intro i b rest far
  rw [closeLiteral, if_neg (by decide), if_neg (far.ne (by decide)), if_neg (far.ne (by decide))]

/-- By induction on the text: each character is passed with all its bytes. -/
theorem closeLiteral_eq (escaped : Bool) (i : Nat) (text : List Char) :
    closeLiteral escaped i (utf8 text) =
      (Fragment.closeLiteral escaped text).map fun parts => i + size parts.1 := by
  induction text generalizing escaped i with
  | nil => rfl
  | cons c rest ih =>
    obtain ⟨first, more, member, spelled, foreign, width⟩ := Text.exists_utf8_cons c rest
    have onward : ∀ next, closeLiteral next (i + c.utf8Size) (utf8 rest) =
        ((Fragment.closeLiteral next rest).map fun parts => (c :: parts.1, parts.2)).map
          fun parts => i + size parts.1 := by
      intro next
      rw [ih, Option.map_map]
      congr 1
      funext parts
      rw [Function.comp_apply, Text.size_cons, Nat.add_assoc]
    have passed : closeLiteral false (i + 1) (more ++ utf8 rest) =
        closeLiteral false (i + c.utf8Size) (utf8 rest) := by
      rw [closeLiteral_foreign foreign, width, Nat.add_assoc, Nat.add_comm 1]
    rw [spelled, closeLiteral, Fragment.closeLiteral]
    simp only [Text.byte_eq_iff member (by decide : '\\'.val.toNat < 128),
      Text.byte_eq_iff member (by decide : '"'.val.toNat < 128)]
    cases escaped with
    | true =>
      rw [if_pos rfl, passed, onward]
      simp
    | false =>
      by_cases slash : c = '\\'
      · subst slash
        obtain rfl := Text.eq_nil_of_ascii (by decide) width
        have next := onward true
        rw [Text.utf8Size_ascii (by decide)] at next
        simpa using next
      · by_cases quote : c = '"'
        · subst quote
          simp
        · simp [slash, quote, passed, onward]

theorem size_literalOf (content : List Char) : size (literalOf content) = 1 + size content + 1 := by
  rw [literalOf, Text.size_concat _ (by decide), Text.size_cons, Text.utf8Size_ascii (by decide)]

theorem splitLiteral_eq (text : List Char) :
    splitLiteral text = .ok (Fragment.splitLiteral text) := by
  unfold splitLiteral Fragment.splitLiteral
  generalize Text.trimStart text = inner
  cases inner with
  | nil => rfl
  | cons c rest =>
    by_cases quote : c = '"'
    · subst quote
      have spelled : (utf8 ('"' :: rest)).drop 1 = utf8 rest := by
        rw [Text.utf8_cons, Text.encodeChar_ascii (by decide)]
        rfl
      have found := closeLiteral_eq false 1 rest
      cases closed : Fragment.closeLiteral false rest with
      | none =>
        rw [closed, Option.map_none] at found
        simp only [List.head?_cons, if_true, spelled, found, closed]
      | some parts =>
        obtain ⟨content, after⟩ := parts
        have split : '"' :: rest = literalOf content ++ after := by
          rw [closeLiteral_eq_some closed]
          simp [literalOf]
        have parts := Text.cut_append (literalOf content) after
        rw [size_literalOf, ← split] at parts
        rw [closed, Option.map_some] at found
        simp only [List.head?_cons, if_true, spelled, found, parts, Except.map, closed]
    · simp [quote]

end Literals

section Expressions

variable {nesting next : Nesting} {c : Char}

/-- The search for the end of an expression, from where it stands. -/
def stopFrom : Nesting → Nat → List UInt8 → Except Fault Stop
  | .outside depth => stop depth false false
  | .inString depth => stop depth true false
  | .escaped depth => stop depth true true

/-- The first byte of a character moves the search as the character does. -/
theorem stopFrom_cons {first : UInt8} (member : first ∈ String.utf8EncodeChar c) (nesting : Nesting)
    (i : Nat) (rest : List UInt8) :
    stopFrom nesting i (first :: rest) =
      match nesting.move c with
      | .onward next => stopFrom next (i + 1) rest
      | .endBefore => .ok (.before i)
      | .endAfter => .ok (.at i) := by
  have same : ∀ m : Char, m.val.toNat < 128 → (first = m.toUInt8 ↔ c = m) := fun m ascii =>
    Text.byte_eq_iff member ascii
  cases nesting with
  | escaped depth => rfl
  | inString depth =>
    simp only [stopFrom, stop, Nesting.move, same '\\' (by decide), same '"' (by decide), if_true,
      Bool.false_eq_true, if_false]
    split
    · rfl
    · split
      · rfl
      · rfl
  | outside depth =>
    simp only [stopFrom, stop, Nesting.move, isOpening, isClosing, same '"' (by decide),
      same '[' (by decide), same '\x7b' (by decide), same '(' (by decide), same ']' (by decide),
      same '\x7d' (by decide), same ')' (by decide), same ';' (by decide), Bool.false_eq_true, if_false,
      Bool.or_eq_true, Bool.and_eq_true, decide_eq_true_eq, or_assoc]
    by_cases quote : c = '"'
    · simp only [quote, if_true]
    · by_cases opening : c = '[' ∨ c = '\x7b' ∨ c = '('
      · simp only [quote, opening, if_false, if_true]
      · by_cases closing : c = ']' ∨ c = '\x7d' ∨ c = ')'
        · cases depth with
          | zero => simp only [quote, opening, closing, if_false, if_true]
          | succ depth =>
            simp only [quote, opening, closing, if_false, if_true, Nat.succ_ne_zero, decrement, bind,
              Except.bind]
        · by_cases ends : c = ';' ∧ depth = 0
          · obtain ⟨rfl, rfl⟩ := ends
            simp
          · simp only [quote, opening, closing, ends, if_false]

theorem stop_foreign {foreign : List UInt8} (h : ∀ b ∈ foreign, Foreign b) (depth : Nat)
    (inString : Bool) (i : Nat) (rest : List UInt8) :
    stop depth inString false i (foreign ++ rest) =
      stop depth inString false (i + foreign.length) rest := by
  apply Text.takes_foreign _ _ h
  intro i b rest far
  have ne : ∀ m : Char, m.val.toNat < 128 → b ≠ m.toUInt8 := fun m ascii => far.ne ascii
  cases inString with
  | true =>
    simp only [stop, ne '\\' (by decide), ne '"' (by decide), if_true, Bool.false_eq_true, if_false]
  | false =>
    simp only [stop, ne '"' (by decide), ne '[' (by decide), ne '\x7b' (by decide), ne '(' (by decide),
      ne ']' (by decide), ne '\x7d' (by decide), ne ')' (by decide), ne ';' (by decide),
      Bool.false_eq_true, if_false, or_self, false_and]

/-- Only a backslash hides the character after it. -/
theorem eq_of_move_escaped {depth : Nat} (h : nesting.move c = .onward (.escaped depth)) :
    c = '\\' := by
  cases nesting with
  | escaped depth => simp [Nesting.move] at h
  | inString depth =>
    by_contra other
    simp only [Nesting.move, other, if_false] at h
    split at h <;> simp at h
  | outside depth =>
    unfold Nesting.move at h
    grind

/-- A character moves the search with all its bytes. -/
theorem stopFrom_rest (moves : nesting.move c = .onward next) {more : List UInt8}
    (foreign : ∀ b ∈ more, Foreign b) (width : c.utf8Size = more.length + 1) (i : Nat)
    (rest : List UInt8) :
    stopFrom next (i + 1) (more ++ rest) = stopFrom next (i + c.utf8Size) rest := by
  have behind : i + c.utf8Size = i + 1 + more.length := by omega
  cases next with
  | outside depth =>
    rw [behind]
    exact stop_foreign foreign depth false (i + 1) rest
  | inString depth =>
    rw [behind]
    exact stop_foreign foreign depth true (i + 1) rest
  | escaped depth =>
    obtain rfl := eq_of_move_escaped moves
    obtain rfl := Text.eq_nil_of_ascii (by decide) width
    rfl

/-- By induction on the text, from the position in front of it. -/
theorem splitAt_stopFrom (nesting : Nesting) (before after : List Char) :
    (stopFrom nesting (size before) (utf8 after)).bind (splitAt (before ++ after)) =
      .ok ((Fragment.splitExpression nesting after).map fun parts => (before ++ parts.1, parts.2)) := by
  induction after generalizing nesting before with
  | nil =>
    rcases nesting with (_ | depth) | depth | depth
    · simp [stopFrom, stop, Fragment.splitExpression, splitAt, Except.bind]
    · simp [stopFrom, stop, Fragment.splitExpression, splitAt, Except.bind]
    · simp [stopFrom, stop, Fragment.splitExpression, splitAt, Except.bind]
    · simp [stopFrom, stop, Fragment.splitExpression, splitAt, Except.bind]
  | cons c rest ih =>
    obtain ⟨first, more, member, spelled, foreign, width⟩ := Text.exists_utf8_cons c rest
    rw [spelled, stopFrom_cons member, Fragment.splitExpression]
    rcases nesting.move_cases c with ⟨next, moves⟩ | ⟨moves, _⟩ | ⟨moves, rfl⟩
    · have later := ih next (before ++ [c])
      rw [List.append_assoc, Text.size_append, Text.size_cons, Text.size_nil, Nat.add_zero] at later
      rw [moves]
      dsimp only
      rw [stopFrom_rest moves foreign width, ← List.singleton_append, later, Option.map_map]
      congr 2
      funext parts
      rw [Function.comp_apply, List.append_assoc]
      rfl
    · simp [moves, splitAt, Except.bind, Text.cut_append, Except.map]
    · have behind := Text.cut_append (before ++ [';']) rest
      rw [Text.size_concat before (by decide), List.append_assoc, List.singleton_append] at behind
      simp [moves, splitAt, bind, Except.bind, Text.cut_append, behind, pure, Except.pure]

theorem splitExpression_eq (text : List Char) :
    splitExpression text = .ok (Fragment.splitExpression (.outside 0) text) := by
  have split := splitAt_stopFrom (.outside 0) [] text
  simpa [splitExpression, stopFrom, bind] using split

end Expressions

section Fragments

/-- Steps without faults, one after the other, are without faults. -/
theorem mk_bind {α β : Type} {step : α → ExceptT Malformed (Except Fault) β}
    {next : α → Except Malformed β} (h : ∀ a, step a = ExceptT.mk (.ok (next a)))
    (first : Except Malformed α) :
    (ExceptT.mk (.ok first) >>= step) = ExceptT.mk (.ok (first >>= next)) := by
  cases first with
  | error problem => rfl
  | ok a => exact h a

theorem readKey_eq (text : List Char) :
    readKey text = ExceptT.mk (.ok (Fragment.readKey text)) := by
  rw [readKey, splitLiteral_eq, Fragment.readKey_eq]
  apply mk_bind
  intro parts
  apply mk_bind
  intro name
  rfl

theorem readAssignment_eq (text : List Char) :
    readAssignment text = ExceptT.mk (.ok (Fragment.readAssignment text)) := by
  rw [readAssignment, readKey_eq, Fragment.readAssignment]
  apply mk_bind
  intro parts
  obtain ⟨name, afterKey⟩ := parts
  dsimp only
  cases stripAssign? afterKey with
  | none => rfl
  | some afterEquals =>
    dsimp only
    rw [splitExpression_eq]
    cases Fragment.splitExpression (.outside 0) afterEquals with
    | none => rfl
    | some parts =>
      obtain ⟨expression, rest⟩ := parts
      change (ExceptT.mk (Except.ok (readListLiteral name expression)) >>= _) =
        ExceptT.mk (Except.ok (readListLiteral name expression >>= _))
      apply mk_bind
      intro value
      apply mk_bind
      intro entries
      rfl

theorem suffix_of_nextAssignment {mode : Mode} {text rest : List Char}
    (h : Fragment.nextAssignment mode text = some rest) : rest <:+ text := by
  fun_induction Fragment.nextAssignment mode text
  case case1 => simp at h
  case case12 found _ =>
    obtain rfl := Option.some.inj h
    exact ⟨assignmentStart, (Text.stripWord?_eq_some_iff.mp found).symm⟩
  all_goals
    rename_i ih
    have later := ih h
    simp only [List.suffix_cons_iff, later, or_true]

/-- Reading an assignment leaves fewer bytes than the text had before its start. -/
theorem size_lt_of_readAssignment {text after rest : List Char} {row : Namespace × List Entry}
    (found : Fragment.nextAssignment (.code none) text = some after)
    (read : Fragment.readAssignment after = .ok (row, rest)) : size rest < size text := by
  obtain ⟨front, rfl⟩ := suffix_of_nextAssignment found
  obtain ⟨body, left, rfl, _, ends⟩ := assigns_of_readAssignment read
  have shorter := length_nextAssignment found
  have more : front ≠ [] := by
    rintro rfl
    simp at shorter
  have width := Text.size_pos more
  have behind : size rest ≤ size left := by
    rcases ends with rfl | ⟨rfl, _⟩
    · rw [Text.size_cons]
      omega
    · exact Nat.le_refl _
  rw [Text.size_append, Text.size_append]
  omega

theorem readAssignments_eq (text : List Char) :
    readAssignments text = .ok (Fragment.readAssignments text) := by
  induction length : size text using Nat.strongRecOn generalizing text with
  | ind length ih =>
    subst length
    have found := nextAssignment_eq [] text
    rw [List.nil_append, Text.size_nil, List.getLast?_nil] at found
    rw [readAssignments, found, ← readFrom_nil, readFrom, List.getLast?_nil]
    cases next : Fragment.nextAssignment (.code none) text with
    | none => rfl
    | some after =>
      dsimp only
      rw [readAssignment_eq]
      cases read : Fragment.readAssignment after with
      | error problem => rfl
      | ok parts =>
        obtain ⟨row, rest⟩ := parts
        have shorter := size_lt_of_readAssignment next read
        simp only [ExceptT.mk, shorter, if_true, ih _ shorter rest rfl, Except.map]

/-- Scanning the bytes of a script never faults, and finds what scanning its characters finds: where
the next assignment starts, where a literal ends and where an expression ends. So a fragment is decoded
without a fault, to the same payload or with the same problem. -/
theorem decode_without_faults :
    (∀ text, nextAssignment text 0 = .ok (Fragment.nextAssignment (.code none) text)) ∧
    (∀ text, splitLiteral text = .ok (Fragment.splitLiteral text)) ∧
    (∀ text, splitExpression text = .ok (Fragment.splitExpression (.outside 0) text)) ∧
    ∀ key text, decode key text = .ok (Fragment.decode key text) := by
  refine ⟨nextAssignment_eq [], splitLiteral_eq, splitExpression_eq, ?_⟩
  intro key text
  rw [decode, Fragment.decode, readLists]
  split
  · rfl
  · rw [readScript, Fragment.readScript]
    split
    · rw [readAssignments_eq]
      rfl
    · rfl

end Fragments

end ImplementorIndex.Fragment.Bytewise
