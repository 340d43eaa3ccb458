import ImplementorIndex.Proofs.Json.Pieces

/-!
# The grammar of JSON

A JSON text is a value between spaces. The grammar is that of the format itself, without the limits of
a reader: containers may be nested to any depth, numbers may be of any size and a code escape may be
half of a surrogate pair. The main statement says that every text that is read is in the grammar. The
reader keeps the containers that are open, so the proof says what may come in each of its states.
-/

namespace ImplementorIndex.Json

def Spaces (text : List Char) : Prop := ∀ c ∈ text, isSpace c = true

def words : List (List Char) :=
  [['n', 'u', 'l', 'l'], ['t', 'r', 'u', 'e'], ['f', 'a', 'l', 's', 'e']]

inductive Form where
  | value
  /-- a value between spaces -/
  | element
  /-- a name, a colon and an element -/
  | member
  /-- one part or more, with commas between them -/
  | list (item : Form)

/-- The text is written as JSON has it. -/
inductive Written : Form → List Char → Prop where
  | word {text : List Char} (known : text ∈ words) : Written .value text
  | number {text : List Char} (h : Number text) : Written .value text
  | string {inside : List Char} (h : Content inside) : Written .value ('"' :: inside ++ ['"'])
  | emptyArray {gap : List Char} (h : Spaces gap) : Written .value ('[' :: gap ++ [']'])
  | array {body : List Char} (h : Written (.list .element) body) :
    Written .value ('[' :: body ++ [']'])
  | emptyObject {gap : List Char} (h : Spaces gap) : Written .value ('\x7b' :: gap ++ ['\x7d'])
  | object {body : List Char} (h : Written (.list .member) body) :
    Written .value ('\x7b' :: body ++ ['\x7d'])
  | element {front text back : List Char} (h : Spaces front) (h' : Written .value text)
    (h'' : Spaces back) : Written .element (front ++ (text ++ back))
  | member {front inside gap text : List Char} (h : Spaces front) (h' : Content inside)
    (h'' : Spaces gap) (value : Written .element text) :
    Written .member (front ++ ('"' :: inside ++ ['"'] ++ (gap ++ ':' :: text)))
  | last {form : Form} {text : List Char} (h : Written form text) : Written (.list form) text
  | more {form : Form} {text rest : List Char} (h : Written form text)
    (h' : Written (.list form) rest) : Written (.list form) (text ++ ',' :: rest)

section Open

def Frame.item : Frame → Form
  | .array _ => .element
  | .member _ _ => .member

/-- The bracket that closes a container of these parts. -/
def Form.closing : Form → Char
  | .element => ']'
  | _ => '\x7d'

@[simp] theorem closing_element : Form.element.closing = ']' := rfl

@[simp] theorem closing_member : Form.member.closing = '\x7d' := rfl

/-- Behind a complete value, the text closes the containers around it. -/
inductive Completes : List Form → List Char → Prop where
  | done {text : List Char} (h : Spaces text) : Completes [] text
  | close {form : Form} {outer : List Form} {front rest : List Char} (h : Spaces front)
    (later : Completes outer rest) : Completes (form :: outer) (front ++ form.closing :: rest)
  | next {form : Form} {outer : List Form} {front body rest : List Char} (h : Spaces front)
    (list : Written (.list form) body) (later : Completes outer rest) :
    Completes (form :: outer) (front ++ ',' :: (body ++ form.closing :: rest))

/-- The text starts with a value inside these containers. -/
def BeginsValue (outer : List Form) (text : List Char) : Prop :=
  ∃ front value rest, text = front ++ (value ++ rest) ∧ Spaces front ∧ Written .value value ∧
    Completes outer rest

def BeginsColon (outer : List Form) (text : List Char) : Prop :=
  ∃ gap rest, text = gap ++ ':' :: rest ∧ Spaces gap ∧ BeginsValue (.member :: outer) rest

def BeginsMember (outer : List Form) (text : List Char) : Prop :=
  ∃ front inside rest, text = front ++ ('"' :: inside ++ ['"'] ++ rest) ∧ Spaces front ∧
    Content inside ∧ BeginsColon outer rest

def ClosesEmpty (form : Form) (outer : List Form) (text : List Char) : Prop :=
  ∃ gap rest, text = gap ++ form.closing :: rest ∧ Spaces gap ∧ Completes outer rest

/-- The text is one that may come in this state. -/
def State.Expects : State → List Char → Prop
  | .value stack, text => BeginsValue (stack.map Frame.item) text
  | .arrayStart stack, text =>
    ClosesEmpty .element (stack.map Frame.item) text ∨
      BeginsValue (.element :: stack.map Frame.item) text
  | .objectStart stack, text =>
    ClosesEmpty .member (stack.map Frame.item) text ∨ BeginsMember (stack.map Frame.item) text
  | .memberName _ stack, text => BeginsMember (stack.map Frame.item) text
  | .memberColon _ _ stack, text => BeginsColon (stack.map Frame.item) text
  | .afterItem _ stack, text => Completes (.element :: stack.map Frame.item) text
  | .afterMember _ stack, text => Completes (.member :: stack.map Frame.item) text
  | .finished _, text => Completes [] text

theorem expects_complete {stack : List Frame} {text : List Char} (value : Value) :
    (complete value stack).Expects text ↔ Completes (stack.map Frame.item) text := by
  cases stack with
  | nil => rfl
  | cons frame stack => cases frame <;> rfl

end Open

section Spaces

variable {outer : List Form} {form : Form} {state : State} {text : List Char} {c : Char}
  (space : isSpace c = true)

include space

theorem spaces_cons (h : Spaces text) : Spaces (c :: text) := by
  intro d member
  rcases List.mem_cons.mp member with rfl | member
  · exact space
  · exact h d member

theorem completes_space (h : Completes outer text) : Completes outer (c :: text) := by
  cases h with
  | done h => exact .done (spaces_cons space h)
  | close h later => exact .close (spaces_cons space h) later
  | next h list later => exact .next (spaces_cons space h) list later

theorem beginsValue_space (h : BeginsValue outer text) : BeginsValue outer (c :: text) := by
  obtain ⟨front, value, rest, rfl, spaces, written, later⟩ := h
  exact ⟨c :: front, value, rest, rfl, spaces_cons space spaces, written, later⟩

theorem beginsMember_space (h : BeginsMember outer text) : BeginsMember outer (c :: text) := by
  obtain ⟨front, inside, rest, rfl, spaces, content, later⟩ := h
  exact ⟨c :: front, inside, rest, rfl, spaces_cons space spaces, content, later⟩

theorem closesEmpty_space (h : ClosesEmpty form outer text) : ClosesEmpty form outer (c :: text) := by
  obtain ⟨gap, rest, rfl, spaces, later⟩ := h
  exact ⟨c :: gap, rest, rfl, spaces_cons space spaces, later⟩

theorem expects_space (h : state.Expects text) : state.Expects (c :: text) := by
  cases state with
  | value stack => exact beginsValue_space space h
  | arrayStart stack => exact h.imp (closesEmpty_space space) (beginsValue_space space)
  | objectStart stack => exact h.imp (closesEmpty_space space) (beginsMember_space space)
  | memberName members stack => exact beginsMember_space space h
  | memberColon members name stack =>
    obtain ⟨gap, rest, rfl, spaces, later⟩ := h
    exact ⟨c :: gap, rest, rfl, spaces_cons space spaces, later⟩
  | afterItem items stack => exact completes_space space h
  | afterMember members stack => exact completes_space space h
  | finished value => exact completes_space space h

end Spaces

section Tokens

variable {outer : List Form} {form : Form} {stack : List Frame} {state next : State} {token : Token}
  {text rest piece : List Char} {c : Char}

def Token.Spelled (piece : List Char) : Token → Prop
  | .openArray => piece = ['[']
  | .closeArray => piece = [']']
  | .openObject => piece = ['\x7b']
  | .closeObject => piece = ['\x7d']
  | .colon => piece = [':']
  | .comma => piece = [',']
  | .null => piece ∈ words
  | .bool _ => piece ∈ words
  | .number _ => Number piece
  | .string _ => ∃ inside, piece = '"' :: inside ++ ['"'] ∧ Content inside

theorem spelled_of_readToken (h : readToken c text = some (token, rest)) :
    ∃ piece, c :: text = piece ++ rest ∧ token.Spelled piece := by
  unfold readToken at h
  split at h
  case h_7 | h_8 | h_9 =>
    obtain ⟨after, word, same⟩ := Option.map_eq_some_iff.mp h
    obtain ⟨rfl, rfl⟩ := Prod.mk.inj same
    rw [Text.stripWord?_eq_some_iff] at word
    subst word
    refine ⟨_ :: _, rfl, ?_⟩
    simp [Token.Spelled, words]
  case h_10 =>
    obtain ⟨read, string, same⟩ := Option.map_eq_some_iff.mp h
    obtain ⟨rfl, rfl⟩ := Prod.mk.inj same
    obtain ⟨inside, rfl, content⟩ := @content_of_readString _ read.2 read.1 string
    exact ⟨'"' :: inside ++ ['"'], by simp, inside, rfl, content⟩
  case h_11 =>
    split at h
    · rename_i numeral after found
      split at h
      · simp only [Option.some.injEq, Prod.mk.injEq] at h
        obtain ⟨rfl, rfl⟩ := h
        exact number_of_read found
      · simp at h
    · simp at h
  all_goals
    simp only [Option.some.injEq, Prod.mk.injEq] at h
    obtain ⟨rfl, rfl⟩ := h
    exact ⟨[_], rfl, rfl⟩

/-- An item and what completes its container make up the body of the container. -/
theorem exists_body (item : ∀ back, Spaces back → Written form (text ++ back))
    (h : Completes (form :: outer) rest) :
    ∃ body after, text ++ rest = body ++ form.closing :: after ∧ Written (.list form) body ∧
      Completes outer after := by
  cases h with
  | @close _ _ front after spaces later =>
    exact ⟨text ++ front, after, by simp, .last (item front spaces), later⟩
  | @next _ _ front body after spaces list later =>
    exact ⟨text ++ front ++ ',' :: body, after, by simp, .more (item front spaces) list, later⟩

theorem exists_elements (h : BeginsValue (.element :: outer) text) :
    ∃ body after, text = body ++ ']' :: after ∧ Written (.list .element) body ∧
      Completes outer after := by
  obtain ⟨front, value, rest, rfl, spaces, written, later⟩ := h
  rw [← List.append_assoc]
  apply exists_body _ later
  intro back spacesBack
  rw [List.append_assoc]
  exact .element spaces written spacesBack

theorem exists_memberList (h : BeginsMember outer text) :
    ∃ body after, text = body ++ '\x7d' :: after ∧ Written (.list .member) body ∧
      Completes outer after := by
  obtain ⟨front, inside, _, rfl, spaces, content, gap, _, rfl, spacesGap, h⟩ := h
  obtain ⟨ahead, value, rest, rfl, spacesAhead, written, later⟩ := h
  have item : ∀ back, Spaces back → Written .member
      ((front ++ ('"' :: inside ++ ['"'] ++ (gap ++ ':' :: (ahead ++ value)))) ++ back) := by
    intro back spacesBack
    have whole := Written.member spaces content spacesGap (.element spacesAhead written spacesBack)
    simpa using whole
  obtain ⟨body, after, same, list, closed⟩ := exists_body item later
  rw [closing_member] at same
  exact ⟨body, after, by rw [← same]; simp, list, closed⟩

theorem spaces_nil : Spaces [] := by
  intro c member
  cases member

theorem beginsValue_of_written (h : Written .value piece) (later : Completes outer rest) :
    BeginsValue outer (piece ++ rest) := ⟨[], piece, rest, rfl, spaces_nil, h, later⟩

theorem beginsValue_of_token (begun : beginValue stack token = some next)
    (spelled : token.Spelled piece) (h : next.Expects rest) :
    BeginsValue (stack.map Frame.item) (piece ++ rest) := by
  cases token with
  | closeArray | closeObject | colon | comma => simp [beginValue] at begun
  | null | bool value =>
    obtain rfl := Option.some.inj begun
    exact beginsValue_of_written (.word spelled) ((expects_complete _).mp h)
  | number value =>
    obtain rfl := Option.some.inj begun
    exact beginsValue_of_written (.number spelled) ((expects_complete _).mp h)
  | string text =>
    obtain rfl := Option.some.inj begun
    obtain ⟨inside, rfl, content⟩ := spelled
    exact beginsValue_of_written (.string content) ((expects_complete _).mp h)
  | openArray =>
    simp only [beginValue, openWithin] at begun
    split at begun
    · obtain rfl := Option.some.inj begun
      obtain rfl : piece = ['['] := spelled
      rcases h with ⟨gap, after, rfl, spaces, later⟩ | h
      · have array := beginsValue_of_written (.emptyArray spaces) later
        simpa using array
      · obtain ⟨body, after, rfl, list, later⟩ := exists_elements h
        have array := beginsValue_of_written (.array list) later
        simpa using array
    · simp at begun
  | openObject =>
    simp only [beginValue, openWithin] at begun
    split at begun
    · obtain rfl := Option.some.inj begun
      obtain rfl : piece = ['\x7b'] := spelled
      rcases h with ⟨gap, after, rfl, spaces, later⟩ | h
      · have object := beginsValue_of_written (.emptyObject spaces) later
        simpa using object
      · obtain ⟨body, after, rfl, list, later⟩ := exists_memberList h
        have object := beginsValue_of_written (.object list) later
        simpa using object
    · simp at begun

theorem expects_of_take (taken : state.take token = some next) (spelled : token.Spelled piece)
    (h : next.Expects rest) : state.Expects (piece ++ rest) := by
  unfold State.take at taken
  split at taken
  case h_1 => exact beginsValue_of_token taken spelled h
  case h_2 =>
    obtain rfl := Option.some.inj taken
    obtain rfl : piece = [']'] := spelled
    exact .inl ⟨[], rest, rfl, spaces_nil, (expects_complete _).mp h⟩
  case h_3 => exact .inr (beginsValue_of_token taken spelled h)
  case h_4 =>
    obtain rfl := Option.some.inj taken
    obtain rfl : piece = ['\x7d'] := spelled
    exact .inl ⟨[], rest, rfl, spaces_nil, (expects_complete _).mp h⟩
  case h_5 =>
    obtain rfl := Option.some.inj taken
    obtain ⟨inside, rfl, content⟩ := spelled
    exact .inr ⟨[], inside, rest, rfl, spaces_nil, content, h⟩
  case h_6 =>
    obtain rfl := Option.some.inj taken
    obtain ⟨inside, rfl, content⟩ := spelled
    exact ⟨[], inside, rest, rfl, spaces_nil, content, h⟩
  case h_7 =>
    obtain rfl := Option.some.inj taken
    obtain rfl : piece = [':'] := spelled
    exact ⟨[], rest, rfl, spaces_nil, h⟩
  case h_8 =>
    obtain rfl := Option.some.inj taken
    obtain rfl : piece = [','] := spelled
    obtain ⟨body, after, rfl, list, later⟩ := exists_elements h
    exact .next spaces_nil list later
  case h_9 =>
    obtain rfl := Option.some.inj taken
    obtain rfl : piece = [']'] := spelled
    exact .close spaces_nil ((expects_complete _).mp h)
  case h_10 =>
    obtain rfl := Option.some.inj taken
    obtain rfl : piece = [','] := spelled
    obtain ⟨body, after, rfl, list, later⟩ := exists_memberList h
    exact .next spaces_nil list later
  case h_11 =>
    obtain rfl := Option.some.inj taken
    obtain rfl : piece = ['\x7d'] := spelled
    exact .close spaces_nil ((expects_complete _).mp h)
  case h_12 => simp at taken

/-- By induction on the tokens: what leads the reader to a finished value is a text that may come. -/
theorem expects_of_takeAll {list : List Token} {value : Value} (cut : tokens text = some list)
    (h : state.takeAll list = some (.finished value)) : state.Expects text := by
  fun_induction tokens text generalizing list state with
  | case1 =>
    obtain rfl := Option.some.inj cut
    obtain rfl := Option.some.inj h
    exact .done spaces_nil
  | case2 c rest space ih => exact expects_space space (ih cut h)
  | case3 => simp at cut
  | case4 c text _ token rest first ih =>
    obtain ⟨later, cutLater, rfl⟩ := Option.map_eq_some_iff.mp cut
    obtain ⟨next, taken, run⟩ := Option.bind_eq_some_iff.mp h
    obtain ⟨piece, same, spelled⟩ := spelled_of_readToken first
    rw [same]
    exact expects_of_take taken spelled (ih cutLater run)

end Tokens

/-- A text that is read is in the grammar. -/
theorem written_of_read {text : List Char} {value : Value} (h : read text = some value) :
    Written .element text := by
  obtain ⟨list, cut, made⟩ := Option.bind_eq_some_iff.mp h
  unfold ofTokens at made
  split at made
  · rename_i finished
    obtain ⟨front, inner, back, rfl, spaces, written, ends⟩ := expects_of_takeAll cut finished
    cases ends with
    | done spacesBack => exact .element spaces written spacesBack
  · simp at made

end ImplementorIndex.Json
