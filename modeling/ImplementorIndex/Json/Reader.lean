import ImplementorIndex.Json.Token
import ImplementorIndex.Json.Value
import ImplementorIndex.Rows

/-!
# Reading JSON values

The tokens of a text are taken one after the other by a machine that keeps the containers still
open. A text is read when its tokens take the machine to exactly one finished value. Members of an
object that share a name keep the place of the first and the value of the last. Containers may be
nested 127 deep.
-/

namespace ImplementorIndex.Json

/-- A container that is open around the value being read. -/
inductive Frame where
  /-- an array, with the items so far, the latest first -/
  | array (items : List Value)
  /-- an object, with the members so far and the name whose value is being read -/
  | member (members : List (String × Value)) (name : String)

/-- What has been read, and with it what may come next. -/
inductive State where
  /-- a value must come -/
  | value (stack : List Frame)
  /-- an array was just opened: a value or its end may come -/
  | arrayStart (stack : List Frame)
  /-- an object was just opened: a name or its end may come -/
  | objectStart (stack : List Frame)
  /-- a name must come -/
  | memberName (members : List (String × Value)) (stack : List Frame)
  /-- the colon after a name must come -/
  | memberColon (members : List (String × Value)) (name : String) (stack : List Frame)
  /-- an item of an array is complete: a comma or the end must come -/
  | afterItem (items : List Value) (stack : List Frame)
  /-- a member of an object is complete: a comma or the end must come -/
  | afterMember (members : List (String × Value)) (stack : List Frame)
  /-- the outermost value is complete: nothing may come -/
  | finished (value : Value)

/-- Containers may be nested less deep than this. -/
def depthLimit : Nat := 128

/-- Puts a complete value where it belongs. -/
def complete (value : Value) : List Frame → State
  | [] => .finished value
  | .array items :: stack => .afterItem (value :: items) stack
  | .member members name :: stack => .afterMember (Rows.put name value members) stack

/-- Opens a container if that does not nest too deep. -/
def openWithin (stack : List Frame) (opened : State) : Option State :=
  if stack.length + 1 < depthLimit then some opened else none

def beginValue (stack : List Frame) : Token → Option State
  | .null => some (complete .null stack)
  | .bool value => some (complete (.bool value) stack)
  | .number value => some (complete (.number value) stack)
  | .string text => some (complete (.string text) stack)
  | .openArray => openWithin stack (.arrayStart stack)
  | .openObject => openWithin stack (.objectStart stack)
  | .closeArray => none
  | .closeObject => none
  | .colon => none
  | .comma => none

def State.take : State → Token → Option State
  | .value stack, token => beginValue stack token
  | .arrayStart stack, .closeArray => some (complete (.array []) stack)
  | .arrayStart stack, token => beginValue (.array [] :: stack) token
  | .objectStart stack, .closeObject => some (complete (.object []) stack)
  | .objectStart stack, .string name => some (.memberColon [] name stack)
  | .memberName members stack, .string name => some (.memberColon members name stack)
  | .memberColon members name stack, .colon => some (.value (.member members name :: stack))
  | .afterItem items stack, .comma => some (.value (.array items :: stack))
  | .afterItem items stack, .closeArray => some (complete (.array items.reverse) stack)
  | .afterMember members stack, .comma => some (.memberName members stack)
  | .afterMember members stack, .closeObject => some (complete (.object members) stack)
  | _, _ => none

def State.takeAll (state : State) : List Token → Option State
  | [] => some state
  | token :: rest => do (← state.take token).takeAll rest

def ofTokens (list : List Token) : Option Value :=
  match (State.value []).takeAll list with
  | some (.finished value) => some value
  | _ => none

def read (text : List Char) : Option Value := (tokens text).bind ofTokens

theorem State.takeAll_append (a b : List Token) (state : State) :
    state.takeAll (a ++ b) = (state.takeAll a).bind (·.takeAll b) := by
  induction a generalizing state with
  | nil => rfl
  | cons token rest ih =>
    simp only [List.cons_append, State.takeAll, Option.bind_eq_bind]
    cases state.take token with
    | none => rfl
    | some next => simpa using ih next

end ImplementorIndex.Json
