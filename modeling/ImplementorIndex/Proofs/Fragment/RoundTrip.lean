import ImplementorIndex.Fragment.Writer
import ImplementorIndex.Proofs.Fragment.Grammar
import ImplementorIndex.Proofs.Json.RoundTrip

/-!
# Written fragments are read back

What a payload is written to is a script of the grammar: its opening and its closing hold no
assignment, and each line in between is one. So reading gives the payload back, whatever its texts
contain.
-/

namespace ImplementorIndex.Fragment

open Json (Readable)
open Text (Blank)

section Entries

theorem entryOf?_valueOf (entry : Entry) : entryOf? (valueOf entry) = some entry := by
  obtain ⟨markup, label⟩ := entry
  cases label <;> rfl

theorem entriesFrom_valueOf (name : Namespace) (position : Nat) (entries : List Entry) :
    entriesFrom name position (entries.map valueOf) = .ok entries := by
  induction entries generalizing position with
  | nil => rfl
  | cons entry entries ih =>
    simp only [List.map_cons, entriesFrom, entryOf?_valueOf, ih, bind, Except.bind, pure, Except.pure]

theorem readable_valueOf (entry : Entry) : Readable 1 (valueOf entry) := by
  unfold valueOf
  split
  · exact Json.readable_string 1 entry.markup
  · rename_i label _
    refine Json.readable_object ?_ ?_
    · show [markupName, labelName].Nodup
      decide
    · intro member hm
      simp only [List.mem_cons, List.not_mem_nil, or_false] at hm
      rcases hm with rfl | rfl
      · exact Json.readable_string 0 entry.markup
      · exact Json.readable_string 0 label

theorem read_entries (entries : List Entry) :
    Json.read (Json.Value.array (entries.map valueOf)).write =
      some (.array (entries.map valueOf)) := by
  refine (Json.readable_array ?_ : Readable 2 _).read (by decide)
  intro item hm
  obtain ⟨entry, _, rfl⟩ := List.mem_map.mp hm
  exact readable_valueOf entry

theorem read_name (name : String) :
    Json.read (literalOf (name.toList.flatMap Json.writeChar)) = some (.string name) :=
  (Json.readable_string 0 name).read (by decide)

end Entries

section Lists

/-- A text that ends with a quote or a brace, as a written entry does. -/
def Finished (text : List Char) : Prop := text.getLast? = some '"' ∨ text.getLast? = some '\x7d'

theorem finished_valueOf (entry : Entry) : Finished (valueOf entry).write := by
  unfold valueOf
  split
  · exact .inl (by simp [Json.Value.write, Json.writeString, List.getLast?_cons])
  · exact .inr (by simp [Json.Value.write, List.getLast?_cons])

theorem finished_append {front text : List Char} (h : Finished text) : Finished (front ++ text) := by
  rcases h with h | h
  · exact .inl (by rw [List.getLast?_append, h]; rfl)
  · exact .inr (by rw [List.getLast?_append, h]; rfl)

theorem finished_joinCommas {pieces : List (List Char)} (more : pieces ≠ [])
    (h : ∀ piece ∈ pieces, Finished piece) : Finished (Json.joinCommas pieces) := by
  induction pieces with
  | nil => exact absurd rfl more
  | cons piece pieces ih =>
    cases pieces with
    | nil => exact h piece List.mem_cons_self
    | cons next pieces =>
      have rest := ih (List.cons_ne_nil _ _) fun p hm => h p (List.mem_cons_of_mem _ hm)
      exact finished_append (@finished_append [','] _ rest)

theorem Finished.trimEnd {text : List Char} (h : Finished text) : Text.trimEnd text = text := by
  have last : ∃ front c, text = front ++ [c] ∧ Text.isBlank c = false := by
    rcases h with h | h
    · obtain ⟨front, rfl⟩ := List.getLast?_eq_some_iff.mp h
      exact ⟨front, '"', rfl, by decide⟩
    · obtain ⟨front, rfl⟩ := List.getLast?_eq_some_iff.mp h
      exact ⟨front, '\x7d', rfl, by decide⟩
  obtain ⟨front, c, rfl, visible⟩ := last
  simp [Text.trimEnd, visible]

theorem Finished.ne_comma {text : List Char} (h : Finished text) : text.getLast? ≠ some ',' := by
  rcases h with h | h <;> simp [h]

theorem stripBrackets?_brackets (body : List Char) :
    stripBrackets? ('[' :: body ++ [']']) = some body := by
  simp [stripBrackets?]

theorem writeItems_eq_map (items : List Json.Value) :
    Json.writeItems items = items.map Json.Value.write := by
  induction items with
  | nil => rfl
  | cons item items ih => rw [Json.writeItems, ih, List.map_cons]

/-- A written list stands behind the equals sign and one space. -/
theorem readListLiteral_written (name : Namespace) (entries : List Entry) :
    readListLiteral name (' ' :: (Json.Value.array (entries.map valueOf)).write) =
      .ok (.array (entries.map valueOf)) := by
  have read := read_entries entries
  rw [Json.Value.write, writeItems_eq_map] at read ⊢
  generalize body : Json.joinCommas ((entries.map valueOf).map Json.Value.write) = inside at read ⊢
  have trimmed : Text.trim (' ' :: ('[' :: inside ++ [']'])) = '[' :: inside ++ [']'] := by
    have first : Text.trimStart (' ' :: ('[' :: inside ++ [']'])) = '[' :: inside ++ [']'] := by
      rw [Text.trimStart_cons, if_pos (by decide), List.cons_append, Text.trimStart_cons,
        if_neg (by decide)]
    rw [Text.trim, first]
    simp [Text.trimEnd, show Text.isBlank ']' = false by decide]
  have ends : inside = [] ∨ Finished inside := by
    cases entries with
    | nil => exact .inl body.symm
    | cons entry entries =>
      rw [← body]
      refine .inr (finished_joinCommas (by simp) ?_)
      intro piece hm
      obtain ⟨value, hv, rfl⟩ := List.mem_map.mp hm
      obtain ⟨entry, _, rfl⟩ := List.mem_map.mp hv
      exact finished_valueOf entry
  have kept : Text.trimEnd inside = inside ∧ inside.getLast? ≠ some ',' := by
    rcases ends with rfl | finished
    · exact ⟨rfl, by simp⟩
    · exact ⟨finished.trimEnd, finished.ne_comma⟩
  simp only [readListLiteral, trimmed, stripBrackets?_brackets, kept.1, kept.2, if_false, read]

end Lists

section Scripts

/-- The line of a namespace holds one assignment, up to the semicolon. -/
theorem assigns_line (row : Namespace × List Entry) :
    Assigns row (literalOf (row.1.text.toList.flatMap Json.writeChar) ++
      (']' :: ' ' :: '=' :: ' ' :: (Json.Value.array (row.2.map valueOf)).write)) := by
  obtain ⟨⟨name⟩, entries⟩ := row
  exact @Assigns.intro [] _ [] [' '] _ name _ entries Text.blank_nil Text.blank_nil Text.blank_space
    (read_name name) (readListLiteral_written ⟨name⟩ entries) (entriesFrom_valueOf ⟨name⟩ 0 entries)

theorem toList_assignmentLine (row : Namespace × List Entry) (rest : List Char) :
    (assignmentLine row).toList ++ rest = assignmentStart ++
      (literalOf (row.1.text.toList.flatMap Json.writeChar) ++
        (']' :: ' ' :: '=' :: ' ' :: (Json.Value.array (row.2.map valueOf)).write)) ++
      ';' :: '\n' :: rest := by
  have start : "implementors[".toList = assignmentStart := by decide +kernel
  have equals : "] = ".toList = [']', ' ', '=', ' '] := by decide +kernel
  have finish : ";\n".toList = [';', '\n'] := by decide +kernel
  -- Only the definition is unfolded here: deriving its equation would compare the texts in it.
  delta assignmentLine
  simp only [String.toList_append, String.toList_ofList, start, equals, finish, List.append_assoc]
  rfl

theorem admits_newline : Admits ['\n'] := by
  intro c last
  obtain rfl := Option.some.inj last
  decide

theorem readAssignments_newline (text : List Char) :
    readAssignments ('\n' :: text) = readAssignments text := by
  rw [← readFrom_nil, ← readFrom_restart (.inl admits_newline)]
  rfl

theorem readAssignments_opening (text : List Char) :
    readAssignments (opening.toList ++ text) = readAssignments text := by
  have passed : nextAssignment (.code none) (opening.toList ++ text) =
      nextAssignment (.code (some '\n')) text := by
    simp [opening, nextAssignment, assignmentStart, tableName, Text.stripWord?]
  rw [← readFrom_nil, ← readFrom_restart (.inl admits_newline), readFrom, List.getLast?_nil, passed]
  rfl

theorem readAssignments_closing : readAssignments closing.toList = .ok [] := by
  have none : nextAssignment (.code none) closing.toList = none := by decide +kernel
  rw [← readFrom_nil, readFrom, List.getLast?_nil, none]

/-- The lines are read one after the other. -/
theorem readAssignments_lines (rows : List (Namespace × List Entry)) :
    readAssignments ((rows.map assignmentLine).flatMap String.toList ++ closing.toList) = .ok rows := by
  induction rows with
  | nil => rw [List.map_nil, List.flatMap_nil, List.nil_append, readAssignments_closing]
  | cons row rows ih =>
    rw [List.map_cons, List.flatMap_cons, List.append_assoc, toList_assignmentLine, ← readFrom_nil,
      readFrom_assigns admits_nil (assigns_line row) (.inl rfl), readAssignments_newline, ih]
    rfl

end Scripts

section Results

theorem toList_encode (payload : Payload) :
    (encode payload).toList = opening.toList ++
      ((payload.groups.rows.map assignmentLine).flatMap String.toList ++ closing.toList) := by
  rw [encode, String.toList_append, String.toList_append, String.toList_join, List.append_assoc]

/-- Reading undoes writing, for every payload. -/
theorem decode_encode (payload : Payload) :
    decode payload.traitKey (encode payload) = .ok payload := by
  have named : tableName <:+: (encode payload).toList := by
    have first : tableName <:+: opening.toList := by decide +kernel
    rw [toList_encode]
    exact first.trans (List.prefix_append _ _).isInfix
  have script : readAssignments (encode payload).toList = .ok payload.groups.rows := by
    rw [toList_encode, readAssignments_opening, readAssignments_lines]
  have plain : stripMark (encode payload).toList = (encode payload).toList ∧
      isJsonForm (encode payload).toList = false := by
    have first : opening.toList.head? = some '(' := by decide +kernel
    obtain ⟨tail, starts⟩ := List.head?_eq_some_iff.mp first
    rw [toList_encode, starts, List.cons_append]
    exact ⟨by simp [stripMark, byteOrderMark], by simp [isJsonForm, Text.trimStart_cons,
      show Text.isBlank '(' = false by decide]⟩
  rw [decode, readLists, plain.1, plain.2]
  simp [readScript, Text.containsWord_iff.mpr named, script, Except.map, Payload.ofGroups,
    Groups.ofList_rows]

end Results

end ImplementorIndex.Fragment
