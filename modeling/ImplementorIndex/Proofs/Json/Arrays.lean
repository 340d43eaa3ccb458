import ImplementorIndex.Proofs.Json.Containers
import ImplementorIndex.Proofs.Json.Grammar

/-!
# Arrays as written

Between the brackets of an array stands a list in the grammar of JSON, so no item is missing: no comma
stands first, and no two commas stand side by side. Where an array with items may end, another item may
be announced by a comma. What becomes of a comma with no item behind it is left to the list literals.
-/

namespace ImplementorIndex.Json

section Bodies

variable {items : List Value} {value : Value} {words : List Token} {body : List Char}

theorem Items.ne_nil (h : Items items words) : items ≠ [] ∧ words ≠ [] := by
  cases h with
  | last stands =>
    refine ⟨List.cons_ne_nil _ _, ?_⟩
    rintro rfl
    simp [ofTokens, State.takeAll] at stands
  | more => exact ⟨List.cons_ne_nil _ _, by simp⟩

/-- What stands between the brackets of an array. -/
theorem exists_items_of_read (h : read ('[' :: body ++ [']']) = some value) :
    ∃ items words, value = .array items ∧ tokens body = some words ∧
      ofTokens (.openArray :: words ++ [.closeArray]) = some value ∧
      (items = [] ∧ words = [] ∨ Items items words) := by
  obtain ⟨list, cut, made⟩ := Option.bind_eq_some_iff.mp h
  rw [List.cons_append, @tokens_mark _ .openArray rfl] at cut
  obtain ⟨rest, cutRest, rfl⟩ := Option.map_eq_some_iff.mp cut
  obtain ⟨items, words, same, rfl, inside⟩ := exists_array made
  exact ⟨items, words, same, tokens_of_concat rfl cutRest, made, inside⟩

theorem Items.written (h : Items items words) (cut : tokens body = some words) :
    Written (.list .element) body := by
  have element : ∀ {text : List Char} {list : List Token} {value : Value},
      tokens text = some list → ofTokens list = some value → Written .element text := by
    intro text list value cut stands
    have found : read text = some value := by rw [read, cut, Option.bind_some, stands]
    exact written_of_read found
  induction h generalizing body with
  | last stands => exact .last (element cut stands)
  | more stands _ ih =>
    obtain ⟨before, after, rfl, cutBefore, cutAfter⟩ := exists_split rfl cut
    exact .more (element cutBefore stands) (ih cutAfter)

end Bodies

section Holes

variable {items : List Value} {value last : Value} {stack : List Frame} {state next : State}
  {words : List Token} {gap rest : List Char}

theorem exists_tokens_comma (blank : Text.Blank gap)
    (h : tokens (gap ++ ',' :: rest) = some words) :
    ∃ later, words = .comma :: later ∧ tokens rest = some later := by
  have cut := tokens_of_blank_append blank h
  rw [@tokens_mark _ .comma rfl] at cut
  obtain ⟨later, cutRest, same⟩ := Option.map_eq_some_iff.mp cut
  exact ⟨later, same.symm, cutRest⟩

theorem eq_of_complete_finished (h : complete value stack = .finished last) : value = last := by
  cases stack with
  | nil => exact State.finished.inj h
  | cons frame stack => cases frame <;> simp [complete] at h

theorem takeAll_comma_comma (state : State) : state.takeAll [.comma, .comma] = none := by
  cases state <;> rfl

/-- Where an array with items may end, another item may be announced. -/
theorem exists_take_comma (more : items ≠ [])
    (closed : state.take .closeArray = some (.finished (.array items))) :
    ∃ next, state.take .comma = some next := by
  cases state with
  | afterItem done stack => exact ⟨_, rfl⟩
  | arrayStart stack =>
    have same := eq_of_complete_finished (Option.some.inj closed)
    exact absurd (Value.array.inj same).symm more
  | value | objectStart | memberName | memberColon | afterMember | finished =>
    simp [State.take, beginValue] at closed

theorem exists_takeAll (h : ofTokens (.openArray :: words ++ [.closeArray]) = some (.array items)) :
    ∃ state, (State.arrayStart []).takeAll words = some state ∧
      state.take .closeArray = some (.finished (.array items)) := by
  have run : (State.arrayStart []).takeAll (words ++ [.closeArray]) =
      some (.finished (.array items)) := ofTokens_eq_some_iff.mp h
  rw [State.takeAll_append] at run
  obtain ⟨state, through, closed⟩ := Option.bind_eq_some_iff.mp run
  obtain ⟨next, taken, ended⟩ := Option.bind_eq_some_iff.mp closed
  exact ⟨state, through, Option.some.inj ended ▸ taken⟩

/-- No item is missing among words that the reader passes in an array. -/
theorem no_hole_of_takeAll (h : (State.arrayStart []).takeAll words = some next) :
    (∀ rest, words ≠ .comma :: rest) ∧ ∀ left right, words ≠ left ++ .comma :: .comma :: right := by
  constructor
  · rintro rest rfl
    simp [State.takeAll, State.take, beginValue] at h
  · rintro left right rfl
    rw [show left ++ Token.comma :: .comma :: right = left ++ ([.comma, .comma] ++ right) from rfl,
      State.takeAll_append] at h
    obtain ⟨state, _, passed⟩ := Option.bind_eq_some_iff.mp h
    rw [State.takeAll_append, takeAll_comma_comma] at passed
    simp at passed

end Holes

end ImplementorIndex.Json
