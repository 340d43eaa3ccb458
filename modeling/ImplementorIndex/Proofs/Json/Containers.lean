import ImplementorIndex.Proofs.Json.Words
import ImplementorIndex.Proofs.Rows

/-!
# Containers as written

The reader keeps one member for each name of an object. What stands in the text may be more: the same
name again, with another value. `WrittenObject` says which members a text has as written, repetitions
included. The main statements say that every object that is read was written so, that what is read is
what the members leave when they are put one after the other, and that what opens as an array is one,
with the words of its items and commas between its brackets and no comma before the closing one.
-/

namespace ImplementorIndex.Json

section Frames

/-- The state of the reader with more containers open around it. -/
def State.under (base : List Frame) : State → State
  | .value stack => .value (stack ++ base)
  | .arrayStart stack => .arrayStart (stack ++ base)
  | .objectStart stack => .objectStart (stack ++ base)
  | .memberName members stack => .memberName members (stack ++ base)
  | .memberColon members name stack => .memberColon members name (stack ++ base)
  | .afterItem items stack => .afterItem items (stack ++ base)
  | .afterMember members stack => .afterMember members (stack ++ base)
  | .finished found => complete found base

variable {base stack : List Frame} {state next : State} {token : Token} {value last : Value}
  {words list : List Token}

theorem under_complete (value : Value) (stack base : List Frame) :
    (complete value stack).under base = complete value (stack ++ base) := by
  cases stack with
  | nil => rfl
  | cons frame stack => cases frame <;> rfl

theorem openWithin_under (h : openWithin (stack ++ base) (state.under base) = some next) :
    openWithin stack state = some state ∧ next = state.under base := by
  unfold openWithin at h ⊢
  split at h
  · rename_i fits
    rw [List.length_append] at fits
    rw [if_pos (by omega)]
    exact ⟨rfl, (Option.some.inj h).symm⟩
  · simp at h

theorem beginValue_under (h : beginValue (stack ++ base) token = some next) :
    ∃ inner, beginValue stack token = some inner ∧ next = inner.under base := by
  cases token with
  | closeArray | closeObject | colon | comma => simp [beginValue] at h
  | openArray => exact ⟨.arrayStart stack, openWithin_under h⟩
  | openObject => exact ⟨.objectStart stack, openWithin_under h⟩
  | null | bool | number | string =>
    obtain rfl := Option.some.inj h
    exact ⟨_, rfl, (under_complete _ stack base).symm⟩

theorem take_arrayStart (stack : List Frame) (more : token ≠ .closeArray) :
    (State.arrayStart stack).take token = beginValue (.array [] :: stack) token := by
  rw [State.take]
  exact more

/-- Until its value is finished, the reader does not look at the containers around it. -/
theorem take_under (busy : ∀ value, state ≠ .finished value)
    (h : (state.under base).take token = some next) :
    ∃ inner, state.take token = some inner ∧ next = inner.under base := by
  cases state with
  | finished value => exact absurd rfl (busy value)
  | value stack => exact beginValue_under h
  | arrayStart stack =>
    by_cases closes : token = .closeArray
    · subst closes
      obtain rfl := Option.some.inj h
      exact ⟨_, rfl, (under_complete _ stack base).symm⟩
    · rw [State.under, take_arrayStart _ closes] at h
      rw [take_arrayStart _ closes]
      exact @beginValue_under base (.array [] :: stack) _ _ h
  | objectStart | memberName | memberColon | afterItem | afterMember =>
    cases token <;> simp only [State.under, State.take, Option.some.injEq, reduceCtorEq] at h
    all_goals
      subst h
      refine ⟨_, rfl, ?_⟩
      first
      | rfl
      | rw [under_complete]

theorem takeAll_under (h : state.takeAll words = some (.finished value))
    (h' : (state.under base).takeAll words = some next) : next = complete value base := by
  induction words generalizing state with
  | nil =>
    obtain rfl := Option.some.inj h
    exact (Option.some.inj h').symm
  | cons token words ih =>
    obtain ⟨alone, taken, later⟩ := Option.bind_eq_some_iff.mp h
    obtain ⟨lifted, takenUnder, laterUnder⟩ := Option.bind_eq_some_iff.mp h'
    have busy : ∀ value, state ≠ .finished value := by
      rintro value rfl
      simp [State.take] at taken
    obtain ⟨inner, again, rfl⟩ := take_under busy takenUnder
    obtain rfl := Option.some.inj (taken.symm.trans again)
    exact ih later laterUnder

/-- A run inside containers first finishes the value in them. -/
theorem exists_value (inside : base ≠ [])
    (h : (state.under base).takeAll list = some (.finished last)) :
    ∃ words rest value, list = words ++ rest ∧ state.takeAll words = some (.finished value) ∧
      (complete value base).takeAll rest = some (.finished last) := by
  induction list generalizing state with
  | nil =>
    have ended := Option.some.inj h
    cases base with
    | nil => exact absurd rfl inside
    | cons frame base => cases state <;> cases frame <;> simp [State.under, complete] at ended
  | cons token list ih =>
    by_cases finished : ∃ value, state = .finished value
    · obtain ⟨value, rfl⟩ := finished
      exact ⟨[], token :: list, value, rfl, rfl, h⟩
    · obtain ⟨lifted, taken, later⟩ := Option.bind_eq_some_iff.mp h
      obtain ⟨inner, alone, rfl⟩ := take_under (fun value e => finished ⟨value, e⟩) taken
      obtain ⟨words, rest, value, rfl, run, outer⟩ := ih later
      refine ⟨token :: words, rest, value, rfl, ?_, outer⟩
      rw [State.takeAll, alone]
      exact run

end Frames

section Objects

variable {members done : List (String × Value)} {name : String} {value last : Value}
  {words list : List Token} {text : List Char}

theorem ofTokens_eq_some_iff :
    ofTokens words = some value ↔ (State.value []).takeAll words = some (.finished value) := by
  unfold ofTokens
  constructor
  · intro h
    split at h
    · rename_i finished
      rw [finished, Option.some.inj h]
    · simp at h
  · intro h
    rw [h]

inductive Members : List (String × Value) → List Token → Prop where
  | last {name : String} {value : Value} {words : List Token} (stands : ofTokens words = some value) :
    Members [(name, value)] (.string name :: .colon :: words)
  | more {name : String} {value : Value} {words rest : List Token}
    {members : List (String × Value)} (stands : ofTokens words = some value)
    (later : Members members rest) :
    Members ((name, value) :: members) (.string name :: .colon :: words ++ .comma :: rest)

inductive WrittenObject : List (String × Value) → List Char → Prop where
  | empty {text : List Char} (words : tokens text = some [.openObject, .closeObject]) :
    WrittenObject [] text
  | members {text : List Char} {list : List Token} {members : List (String × Value)}
    (words : tokens text = some (.openObject :: list ++ [.closeObject]))
    (inside : Members members list) : WrittenObject members text

/-- The members that are left when members are put after those that are done. -/
def putAll (done members : List (String × Value)) : List (String × Value) :=
  members.foldl (fun rows row => Rows.put row.1 row.2 rows) done

theorem exists_member
    (h : (State.memberName done []).takeAll list = some (.finished last)) :
    ∃ name words value rest, list = .string name :: .colon :: words ++ rest ∧
      ofTokens words = some value ∧
      (State.afterMember (Rows.put name value done) []).takeAll rest = some (.finished last) := by
  match list with
  | [] => simp [State.takeAll] at h
  | [.string name] => simp [State.takeAll, State.take] at h
  | .string name :: .colon :: list =>
    have inside : ((State.value []).under [.member done name]).takeAll list =
        some (.finished last) := h
    obtain ⟨words, rest, value, rfl, run, after⟩ := exists_value (List.cons_ne_nil _ _) inside
    exact ⟨name, words, value, rest, rfl, ofTokens_eq_some_iff.mpr run, after⟩

theorem exists_members (h : (State.memberName done []).takeAll list = some (.finished last)) :
    ∃ members words, list = words ++ [.closeObject] ∧ Members members words ∧
      last = .object (putAll done members) := by
  -- Behind a member the object ends, or another member comes and fewer words are left.
  induction size : list.length using Nat.strongRecOn generalizing list done with
  | ind size ih =>
    subst size
    obtain ⟨name, words, value, rest, rfl, stands, after⟩ := exists_member h
    match rest with
    | [] => simp [State.takeAll] at after
    | .comma :: rest =>
      obtain ⟨members, later, rfl, inside, same⟩ := ih rest.length (by simp; omega) after rfl
      exact ⟨(name, value) :: members, .string name :: .colon :: words ++ .comma :: later, by simp,
        .more stands inside, same⟩
    | .closeObject :: rest =>
      obtain rfl := nil_of_takeAll_finished after
      exact ⟨[(name, value)], .string name :: .colon :: words, rfl, .last stands,
        (State.finished.inj (Option.some.inj after)).symm⟩

/-- Words that stand for a value lead through it wherever they lead on. -/
theorem takeAll_member (stands : ofTokens words = some value)
    (run : (State.memberName done []).takeAll (.string name :: .colon :: words ++ list) =
      some (.finished last)) :
    (State.afterMember (Rows.put name value done) []).takeAll list = some (.finished last) := by
  have inside : ((State.value []).under [.member done name]).takeAll (words ++ list) =
      some (.finished last) := run
  rw [State.takeAll_append] at inside
  obtain ⟨next, through, after⟩ := Option.bind_eq_some_iff.mp inside
  rw [takeAll_under (ofTokens_eq_some_iff.mp stands) through] at after
  exact after

theorem Members.eq_putAll (h : Members members words)
    (run : (State.memberName done []).takeAll (words ++ [.closeObject]) = some (.finished last)) :
    last = .object (putAll done members) := by
  induction h generalizing done with
  | last stands =>
    have closed := takeAll_member stands run
    exact (State.finished.inj (Option.some.inj closed)).symm
  | more stands _ ih =>
    rw [List.append_assoc] at run
    exact ih (takeAll_member stands run)

theorem exists_object (h : (State.objectStart []).takeAll list = some (.finished value)) :
    ∃ members, value = .object (Rows.ofList members) ∧
      (members = [] ∧ list = [.closeObject] ∨
        ∃ words, Members members words ∧ list = words ++ [.closeObject]) := by
  match list with
  | [] => simp [State.takeAll] at h
  | .closeObject :: list =>
    obtain rfl := nil_of_takeAll_finished h
    exact ⟨[], (State.finished.inj (Option.some.inj h)).symm, .inl ⟨rfl, rfl⟩⟩
  | .string name :: list =>
    have named : (State.memberName [] []).takeAll (.string name :: list) = some (.finished value) := h
    obtain ⟨members, words, same, written, rfl⟩ := exists_members named
    exact ⟨members, rfl, .inr ⟨words, written, same⟩⟩

theorem exists_writtenObject (cut : tokens text = some (.openObject :: list))
    (h : read text = some value) : ∃ members, WrittenObject members text := by
  rw [read, cut, Option.bind_some, ofTokens_eq_some_iff] at h
  obtain ⟨members, _, ⟨rfl, rfl⟩ | ⟨words, written, rfl⟩⟩ := exists_object h
  · exact ⟨[], .empty cut⟩
  · exact ⟨members, .members cut written⟩

/-- An object that is read is what its members leave, one put after the other. -/
theorem WrittenObject.eq_ofList (h : WrittenObject members text) (found : read text = some value) :
    value = .object (Rows.ofList members) := by
  cases h with
  | empty words =>
    rw [read, words] at found
    exact (Option.some.inj found).symm
  | @members _ list _ words inside =>
    rw [read, words, Option.bind_some, ofTokens_eq_some_iff] at found
    have run : (State.objectStart []).takeAll (list ++ [.closeObject]) = some (.finished value) := found
    cases inside with
    | last stands => exact (Members.last stands).eq_putAll run
    | more stands later => exact (Members.more stands later).eq_putAll run

theorem readable_null (depth : Nat) : Readable depth .null := by
  refine ⟨[.null], spells_of_readToken (by decide) fun _ => rfl, ?_⟩
  intro stack _
  rfl

/-- Members that are written one after the other, names repeated or not, leave what they put. -/
theorem read_members {depth : Nat} (h : ∀ member ∈ members, Readable depth member.2)
    (shallow : depth + 1 < depthLimit) :
    read ('\x7b' :: joinCommas (writeMembers members) ++ ['\x7d']) =
      some (.object (Rows.ofList members)) := by
  cases members with
  | nil => exact (readable_object (by simp) (by simp) : Readable 1 (.object [])).read (by decide)
  | cons member members =>
    obtain ⟨list, spells, takes⟩ := readable_members h
    have cut := spells.braces []
    have run := takes [] [] (by simpa using shallow)
    rw [List.append_nil, tokens, Option.map_some, List.append_nil] at cut
    rw [read, cut, Option.bind_some, ofTokens_eq_some_iff, List.cons_append, List.cons_append]
    have inside : (State.memberColon [] member.1 []).takeAll (list ++ [.closeObject]) =
        some (.finished (.object (Rows.ofList (member :: members)))) := by
      rw [State.takeAll_append, run]
      rfl
    exact inside

end Objects

section Arrays

variable {items done : List Value} {value last : Value} {words list : List Token}

inductive Items : List Value → List Token → Prop where
  | last {value : Value} {words : List Token} (stands : ofTokens words = some value) :
    Items [value] words
  | more {value : Value} {words rest : List Token} {items : List Value}
    (stands : ofTokens words = some value) (later : Items items rest) :
    Items (value :: items) (words ++ .comma :: rest)

theorem exists_itemList (h : (State.value [.array done]).takeAll list = some (.finished last)) :
    ∃ items words, list = words ++ [.closeArray] ∧ Items items words ∧
      last = .array (done.reverse ++ items) := by
  -- Behind an item the array ends, or another item comes and fewer words are left.
  induction size : list.length using Nat.strongRecOn generalizing list done with
  | ind size ih =>
    subst size
    have inside : ((State.value []).under [.array done]).takeAll list = some (.finished last) := h
    obtain ⟨words, rest, value, rfl, run, after⟩ := exists_value (List.cons_ne_nil _ _) inside
    have stands := ofTokens_eq_some_iff.mpr run
    match rest with
    | [] => simp [State.takeAll, complete] at after
    | .comma :: rest =>
      obtain ⟨items, later, rfl, written, rfl⟩ := ih rest.length (by simp; omega) after rfl
      exact ⟨value :: items, words ++ .comma :: later, by simp, .more stands written, by simp⟩
    | .closeArray :: rest =>
      obtain rfl := nil_of_takeAll_finished after
      obtain rfl := State.finished.inj (Option.some.inj after)
      exact ⟨[value], words, rfl, .last stands, by simp⟩

theorem exists_array (h : ofTokens (.openArray :: list) = some value) :
    ∃ items words, value = .array items ∧ list = words ++ [.closeArray] ∧
      (items = [] ∧ words = [] ∨ Items items words) := by
  have run : (State.arrayStart []).takeAll list = some (.finished value) := ofTokens_eq_some_iff.mp h
  cases list with
  | nil => simp [State.takeAll] at run
  | cons token list =>
    by_cases closes : token = .closeArray
    · subst closes
      obtain rfl := nil_of_takeAll_finished run
      obtain rfl := State.finished.inj (Option.some.inj run)
      exact ⟨[], [], rfl, rfl, .inl ⟨rfl, rfl⟩⟩
    · rw [State.takeAll, take_arrayStart [] closes] at run
      have begun : (State.value [.array []]).takeAll (token :: list) = some (.finished value) := run
      obtain ⟨items, words, same, inside, rfl⟩ := exists_itemList begun
      exact ⟨items, words, rfl, same, .inr inside⟩

theorem takeAll_comma_closeArray (state : State) : state.takeAll [.comma, .closeArray] = none := by
  cases state <;> rfl

theorem exists_openArray (h : ofTokens words = some (.array items)) :
    ∃ rest, words = .openArray :: rest := by
  rw [ofTokens_eq_some_iff] at h
  cases words with
  | nil => simp [State.takeAll] at h
  | cons token rest =>
    cases token with
    | openArray => exact ⟨rest, rfl⟩
    | openObject =>
      obtain ⟨members, same, _⟩ := exists_object h
      simp at same
    | closeArray | closeObject | colon | comma => simp [State.takeAll, State.take, beginValue] at h
    | null | bool | number | string =>
      obtain rfl := nil_of_takeAll_finished h
      simp [State.takeAll, State.take, beginValue, complete] at h

/-- The words of an array stand between brackets, and no comma stands before the closing one. -/
theorem exists_items (h : ofTokens words = some (.array items)) :
    ∃ list, words = .openArray :: list ++ [.closeArray] ∧ list.getLast? ≠ some .comma := by
  obtain ⟨rest, rfl⟩ := exists_openArray h
  obtain ⟨_, list, _, rfl, _⟩ := exists_array h
  refine ⟨list, rfl, ?_⟩
  intro comma
  obtain ⟨front, rfl⟩ := List.getLast?_eq_some_iff.mp comma
  rw [ofTokens_eq_some_iff, List.append_assoc, ← List.cons_append, State.takeAll_append] at h
  obtain ⟨before, _, passed⟩ := Option.bind_eq_some_iff.mp h
  rw [List.singleton_append, takeAll_comma_closeArray] at passed
  simp at passed

end Arrays

end ImplementorIndex.Json
