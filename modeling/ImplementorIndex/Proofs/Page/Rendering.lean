import ImplementorIndex.Page
import Mathlib.Data.List.Induction

/-!
# The published rendering

A page changes in two ways: it takes a payload, and it puts a trait on display. The rendering that it
publishes is a copy made at some earlier operation. The main statement of this module says of every
sequence of operations that the copy is the one a reader would make now, and which operations made it
anew.
-/

namespace ImplementorIndex.Page

variable {options : RenderOptions} {page : Page} {payload : Payload} {key : TraitKey}

inductive Operation where
  | accept (payload : Payload)
  | display (key : TraitKey)
deriving DecidableEq

namespace Operation

def displayed? : Operation → Option TraitKey
  | accept _ => none
  | display key => some key

/-- The operation puts a trait on display or brings a payload of the one that is there. -/
def Touches (displayed : Option TraitKey) : Operation → Prop
  | accept payload => displayed = some payload.traitKey
  | display _ => True

instance (displayed : Option TraitKey) : (next : Operation) → Decidable (next.Touches displayed)
  | accept payload => inferInstanceAs (Decidable (displayed = some payload.traitKey))
  | display _ => inferInstanceAs (Decidable True)

end Operation

def displays (operations : List Operation) : List TraitKey :=
  operations.filterMap Operation.displayed?

def lastDisplayed (operations : List Operation) : Option TraitKey := (displays operations).getLast?

/-- At this place of the sequence stands a payload of the trait that was on display just then. -/
def hitAt (operations : List Operation) (place : Nat) : Bool :=
  match operations[place]? with
  | some (.accept payload) => lastDisplayed (operations.take place) = some payload.traitKey
  | _ => false

def hits (operations : List Operation) : Nat :=
  (List.range operations.length).countP (hitAt operations)

@[simp] theorem displays_concat_accept (operations : List Operation) (payload : Payload) :
    displays (operations ++ [.accept payload]) = displays operations := by
  simp [displays, Operation.displayed?]

@[simp] theorem displays_concat_display (operations : List Operation) (key : TraitKey) :
    displays (operations ++ [.display key]) = displays operations ++ [key] := by
  simp [displays, Operation.displayed?]

@[simp] theorem lastDisplayed_concat_accept (operations : List Operation) (payload : Payload) :
    lastDisplayed (operations ++ [.accept payload]) = lastDisplayed operations := by
  simp [lastDisplayed]

@[simp] theorem lastDisplayed_concat_display (operations : List Operation) (key : TraitKey) :
    lastDisplayed (operations ++ [.display key]) = some key := by
  simp [lastDisplayed]

theorem lastDisplayed_append_accepts (operations : List Operation) (payloads : List Payload) :
    lastDisplayed (operations ++ payloads.map .accept) = lastDisplayed operations := by
  have none : (payloads.map Operation.accept).filterMap Operation.displayed? = [] := by
    simp [List.filterMap_map, Operation.displayed?]
  rw [lastDisplayed, displays, List.filterMap_append, none, List.append_nil]
  rfl

theorem hitAt_append_of_lt {operations : List Operation} {place : Nat}
    (h : place < operations.length) (more : List Operation) :
    hitAt (operations ++ more) place = hitAt operations place := by
  unfold hitAt
  rw [List.getElem?_append_left h, List.take_append_of_le_length (Nat.le_of_lt h)]

/-- The places before the last one keep what they are, so only the last one is counted anew. -/
theorem hits_concat (operations : List Operation) (next : Operation) :
    hits (operations ++ [next]) =
      hits operations + if hitAt (operations ++ [next]) operations.length then 1 else 0 := by
  have earlier : (List.range operations.length).countP (hitAt (operations ++ [next])) =
      hits operations := by
    apply List.countP_congr
    intro place member
    rw [hitAt_append_of_lt (List.mem_range.mp member)]
  simp only [hits, List.length_append, List.length_singleton, List.range_succ,
    List.countP_append, List.countP_singleton, earlier]

theorem hits_concat_accept (operations : List Operation) (payload : Payload) :
    hits (operations ++ [.accept payload]) =
      hits operations + if lastDisplayed operations = some payload.traitKey then 1 else 0 := by
  rw [hits_concat]
  simp [hitAt]

theorem hits_concat_display (operations : List Operation) (key : TraitKey) :
    hits (operations ++ [.display key]) = hits operations := by
  rw [hits_concat]
  simp [hitAt]

def perform (page : Page) : Operation → Page
  | .accept payload => (page.accept payload).value
  | .display key => (page.display key).value

/-- The page that a sequence of operations makes of a new one. -/
def after (options : RenderOptions) (operations : List Operation) : Page :=
  operations.foldl perform { options := options }

theorem after_concat (options : RenderOptions) (operations : List Operation) (next : Operation) :
    after options (operations ++ [next]) = (after options operations).perform next := by
  simp [after]

def absorb (page : Page) (payload : Payload) : Page :=
  { page with traits := Rows.put payload.traitKey (page.mergePayload payload).1 page.traits }

theorem groups?_absorb (page : Page) (payload : Payload) (key : TraitKey) :
    (page.absorb payload).groups? key =
      if payload.traitKey = key then some (page.mergePayload payload).1 else page.groups? key :=
  Rows.find?_put payload.traitKey key (page.mergePayload payload).1 page.traits

theorem sectionOf_absorb_of_ne (h : payload.traitKey ≠ key) :
    (page.absorb payload).sectionOf key = page.sectionOf key := by
  unfold sectionOf
  rw [groups?_absorb, if_neg h]

theorem perform_accept_displayed (h : page.displayed = some payload.traitKey) :
    page.perform (.accept payload) = ((page.absorb payload).publish payload.traitKey).value := by
  simp [perform, accept, absorb, h]

theorem perform_accept_other (h : page.displayed ≠ some payload.traitKey) :
    page.perform (.accept payload) = page.absorb payload := by
  simp [perform, accept, absorb, h]

/-- The rendering is the one of the trait on display as it is now, or still the blank one. -/
def Current (page : Page) : Prop :=
  match page.displayed with
  | none => page.rendered = { traitKey := none, html := "", revision := 0 }
  | some key =>
    page.rendered.traitKey = some key ∧
      page.rendered.html = (page.sectionOf key).render page.options

/-- The page is in step with the operations that made it. -/
structure InStep (options : RenderOptions) (operations : List Operation) (page : Page) : Prop where
  options : page.options = options
  displayed : page.displayed = lastDisplayed operations
  current : page.Current
  revision : page.rendered.revision = (displays operations).length + hits operations

/-- A rendering made for the trait on display is current, whatever stood there before. -/
theorem current_publish (h : page.displayed = some key) : (page.publish key).value.Current := by
  have same : (page.publish key).value.displayed = some key := h
  unfold Current
  rw [same]
  exact ⟨rfl, rfl⟩

/-- A payload of another trait leaves the section on display as it is. -/
theorem Current.absorb (h : page.Current) (other : page.displayed ≠ some payload.traitKey) :
    (page.absorb payload).Current := by
  have same : (page.absorb payload).displayed = page.displayed := rfl
  unfold Current at h ⊢
  rw [same]
  cases shown : page.displayed with
  | none =>
    rw [shown] at h
    exact h
  | some key =>
    rw [shown] at h other
    have ne : payload.traitKey ≠ key := fun e => other (e ▸ rfl)
    simp only [sectionOf_absorb_of_ne ne]
    exact h

theorem inStep_new (options : RenderOptions) : InStep options [] { options := options } :=
  ⟨rfl, rfl, rfl, rfl⟩

theorem InStep.perform {operations : List Operation} (h : InStep options operations page)
    (next : Operation) : InStep options (operations ++ [next]) (page.perform next) := by
  cases next with
  | display key =>
    refine ⟨h.options, ?_, current_publish rfl, ?_⟩
    · rw [lastDisplayed_concat_display]
      rfl
    · have one : (page.perform (.display key)).rendered.revision = page.rendered.revision + 1 := rfl
      rw [one, h.revision, displays_concat_display, hits_concat_display, List.length_append,
        List.length_singleton]
      omega
  | accept payload =>
    by_cases shown : page.displayed = some payload.traitKey
    · rw [perform_accept_displayed shown]
      refine ⟨h.options, ?_, current_publish shown, ?_⟩
      · rw [lastDisplayed_concat_accept]
        exact h.displayed
      · have one : ((page.absorb payload).publish payload.traitKey).value.rendered.revision =
            page.rendered.revision + 1 := rfl
        rw [one, h.revision, displays_concat_accept, hits_concat_accept, ← h.displayed,
          if_pos shown, Nat.add_assoc]
    · rw [perform_accept_other shown]
      refine ⟨h.options, ?_, h.current.absorb shown, ?_⟩
      · rw [lastDisplayed_concat_accept]
        exact h.displayed
      · have same : (page.absorb payload).rendered = page.rendered := rfl
        rw [same, h.revision, displays_concat_accept, hits_concat_accept, ← h.displayed,
          if_neg shown, Nat.add_zero]

theorem inStep_after (options : RenderOptions) (operations : List Operation) :
    InStep options operations (after options operations) := by
  -- The last operation is the one that is taken off: the specification looks back from the end.
  induction operations using List.reverseRecOn with
  | nil => exact inStep_new options
  | append_singleton operations next ih =>
    rw [after_concat]
    exact ih.perform next

theorem rendered_after (options : RenderOptions) (operations : List Operation) :
    (after options operations).rendered.traitKey = lastDisplayed operations ∧
      (after options operations).rendered.html =
        match lastDisplayed operations with
        | none => ""
        | some key => ((after options operations).sectionOf key).render options := by
  have inStep := inStep_after options operations
  have current := inStep.current
  unfold Current at current
  rw [inStep.displayed, inStep.options] at current
  cases shown : lastDisplayed operations with
  | none =>
    rw [shown] at current
    rw [current]
    exact ⟨rfl, rfl⟩
  | some key =>
    rw [shown] at current
    exact current

theorem rendered_perform_of_not_touches {next : Operation} (h : ¬ next.Touches page.displayed) :
    (page.perform next).rendered = page.rendered := by
  cases next with
  | display key => exact absurd trivial h
  | accept payload =>
    rw [perform_accept_other h]
    rfl

theorem revision_perform_of_touches {next : Operation} (h : next.Touches page.displayed) :
    (page.perform next).rendered.revision = page.rendered.revision + 1 := by
  cases next with
  | display key => rfl
  | accept payload =>
    rw [perform_accept_displayed h]
    rfl

/-- The published rendering is never stale. Before the first display it is blank; from then on it is
the text of the section, as it stands now, of the trait that was displayed last. It is made anew by
a display and by a payload of the trait on display, once each, and nothing else changes it. -/
theorem rendered_never_stale (options : RenderOptions) (operations : List Operation) :
    (match lastDisplayed operations with
      | none =>
        (after options operations).rendered = { traitKey := none, html := "", revision := 0 }
      | some key =>
        (after options operations).rendered.traitKey = some key ∧
          (after options operations).rendered.html =
            ((after options operations).sectionOf key).render options) ∧
    (after options operations).rendered.revision =
      (displays operations).length + hits operations ∧
    ∀ next : Operation,
      if next.Touches (lastDisplayed operations) then
        (after options (operations ++ [next])).rendered.revision =
          (after options operations).rendered.revision + 1
      else
        (after options (operations ++ [next])).rendered = (after options operations).rendered := by
  have inStep := inStep_after options operations
  have current := inStep.current
  unfold Current at current
  rw [inStep.displayed, inStep.options] at current
  refine ⟨current, inStep.revision, ?_⟩
  intro next
  rw [after_concat, ← inStep.displayed]
  split
  · exact revision_perform_of_touches ‹_›
  · exact rendered_perform_of_not_touches ‹_›

end ImplementorIndex.Page
