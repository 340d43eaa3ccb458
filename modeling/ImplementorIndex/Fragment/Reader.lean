import ImplementorIndex.Fragment.EntryList
import ImplementorIndex.Fragment.Scan

/-!
# Reading fragments

A fragment is read from one of two forms. The JSON form is one object that maps namespaces to entry
lists. The script form assigns entry lists to the members of a table, and everything between the
assignments is passed over. A text that starts with a brace is taken for JSON. Either form is read
whole or not at all.
-/

namespace ImplementorIndex.Fragment

open Json (Value)

def byteOrderMark : Char := '\ufeff'

def stripMark : List Char → List Char
  | [] => []
  | c :: rest => if c = byteOrderMark then rest else c :: rest

/-- The text is to be read as JSON. -/
def isJsonForm (text : List Char) : Bool := (Text.trimStart text).head? = some '\x7b'

def readMembers : List (String × Value) → Except Malformed (List (Namespace × List Entry))
  | [] => .ok []
  | (name, value) :: rest => do
    let entries ← entriesOf ⟨name⟩ value
    return (⟨name⟩, entries) :: (← readMembers rest)

def readJson (text : List Char) : Except Malformed (List (Namespace × List Entry)) :=
  match Json.read text with
  | none => .error .invalidJson
  | some (.object members) => readMembers members
  | some _ => .error .notObject

def literalOf (content : List Char) : List Char := '"' :: content ++ ['"']

/-- Reads the literal of a key: the namespace, and the text behind the literal. -/
def readKey (text : List Char) : Except Malformed (Namespace × List Char) :=
  match Text.trimStart text with
  | '"' :: rest =>
    match closeLiteral false rest with
    | none => .error .keyUnterminated
    | some (content, rest) =>
      match Json.read (literalOf content) with
      | some (.string name) => .ok (⟨name⟩, rest)
      | _ => .error (.keyInvalid (String.ofList (literalOf content)))
  | _ => .error .keyNotLiteral

/-- Takes one character off the front of a text, past blank characters. -/
def stripMarkOf? (mark : Char) (text : List Char) : Option (List Char) :=
  Text.stripWord? [mark] (Text.trimStart text)

/-- Takes the closing bracket of a key and the equals sign off the front of a text. -/
def stripAssign? (text : List Char) : Option (List Char) :=
  (stripMarkOf? ']' text).bind (stripMarkOf? '=')

/-- Reads an assignment whose start was passed: its namespace with its entries, and what follows. -/
def readAssignment (text : List Char) :
    Except Malformed ((Namespace × List Entry) × List Char) := do
  let (name, text) ← readKey text
  match stripAssign? text with
  | none => .error (.assignmentExpected name)
  | some text =>
    match splitExpression (.outside 0) text with
    | none => .error .listUnterminated
    | some (expression, rest) =>
      let value ← readListLiteral name expression
      let entries ← entriesOf name value
      return ((name, entries), rest)

theorem length_readKey {text rest : List Char} {name : Namespace}
    (h : readKey text = .ok (name, rest)) : rest.length < text.length := by
  unfold readKey at h
  split at h
  · rename_i tail ht
    have hle := Text.length_trimStart_le text
    rw [ht, List.length_cons] at hle
    split at h
    · simp at h
    · rename_i hc
      have := length_closeLiteral hc
      split at h
      · simp only [Except.ok.injEq, Prod.mk.injEq] at h
        rw [← h.2]
        omega
      · simp at h
  · simp at h

theorem length_stripMarkOf? {mark : Char} {text rest : List Char}
    (h : stripMarkOf? mark text = some rest) : rest.length < text.length := by
  have h1 := Text.length_stripWord? h
  have h2 := Text.length_trimStart_le text
  simp only [List.length_cons, List.length_nil] at h1
  omega

theorem length_stripAssign? {text rest : List Char} (h : stripAssign? text = some rest) :
    rest.length < text.length := by
  simp only [stripAssign?, Option.bind_eq_some_iff] at h
  obtain ⟨middle, h1, h2⟩ := h
  have := length_stripMarkOf? h1
  have := length_stripMarkOf? h2
  omega

theorem length_readAssignment {text rest : List Char} {row : Namespace × List Entry}
    (h : readAssignment text = .ok (row, rest)) : rest.length < text.length := by
  unfold readAssignment at h
  cases hk : readKey text with
  | error problem => simp [hk, bind, Except.bind] at h
  | ok key =>
    obtain ⟨name, afterKey⟩ := key
    have h1 := length_readKey hk
    simp only [hk, bind, Except.bind] at h
    split at h
    · simp at h
    · rename_i ha
      have h2 := length_stripAssign? ha
      split at h
      · simp at h
      · rename_i hx
        have h3 := length_splitExpression hx
        split at h
        · simp at h
        · split at h
          · simp at h
          · simp only [pure, Except.pure, Except.ok.injEq, Prod.mk.injEq] at h
            rw [← h.2]
            omega

/-- Reads the assignments of a script, from left to right. -/
def readAssignments (text : List Char) : Except Malformed (List (Namespace × List Entry)) :=
  match _h : nextAssignment (.code none) text with
  | none => .ok []
  | some after =>
    match _h' : readAssignment after with
    | .error problem => .error problem
    | .ok (row, rest) => (readAssignments rest).map (row :: ·)
termination_by text.length
decreasing_by
  have := length_nextAssignment _h
  have := length_readAssignment _h'
  omega

def readScript (text : List Char) : Except Malformed (List (Namespace × List Entry)) :=
  if Text.containsWord tableName text then readAssignments text else .error .noTable

/-- The lists that a text assigns, in the order written. -/
def readLists (text : List Char) : Except Malformed (List (Namespace × List Entry)) :=
  let text := stripMark text
  if isJsonForm text then readJson text else readScript text

/-- Reads a fragment for a trait. -/
def decode (key : TraitKey) (text : String) : Except Malformed Payload :=
  (readLists text.toList).map (Payload.ofGroups key)

end ImplementorIndex.Fragment
