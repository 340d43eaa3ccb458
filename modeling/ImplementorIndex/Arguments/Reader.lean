import ImplementorIndex.Arguments.Basic

/-!
# Reading the arguments

Arguments are read from left to right. A setting without a value attached takes the next argument
that is no option, and its value is looked at only when the next option or name arrives, or at the
end. The first verb ends the outer part; what stands behind it is read before the rest of the outer
part is settled. Behind two dashes everything is a name.
-/

namespace ImplementorIndex.Arguments

inductive Form where
  /-- two dashes alone -/
  | marker
  /-- a long name behind two dashes, and the value behind an equals sign -/
  | long (name : String) (value : Option String)
  /-- letters behind one dash -/
  | letters (letters : List Char)
  /-- anything else, a dash alone included -/
  | plain
deriving DecidableEq

/-- Cuts a long option at its first equals sign. -/
def Form.ofLong (text : List Char) : Form :=
  .long (String.ofList (text.takeWhile (· ≠ '=')))
    (match text.dropWhile (· ≠ '=') with
      | [] => none
      | _ :: value => some (String.ofList value))

def Form.of (text : String) : Form :=
  match text.toList with
  | ['-', '-'] => .marker
  | '-' :: '-' :: rest => ofLong rest
  | '-' :: c :: rest => .letters (c :: rest)
  | _ => .plain

/-- A setting whose value has not been looked at yet. -/
inductive Pending where
  | nothing
  | awaiting (setting : Setting)
  | holding (setting : Setting) (value : String)
deriving DecidableEq

/-- How far one side of the verb has been read. -/
structure Side where
  given : Given := {}
  pending : Pending := .nothing
deriving DecidableEq

namespace Side

def settle (side : Side) : Except Refusal Given :=
  match side.pending with
  | .nothing => .ok side.given
  | .awaiting _ => .error .usage
  | .holding setting value => side.given.set value setting

/-- Takes a setting with the value attached to it, or waits for one. -/
def takeSetting (side : Side) (setting : Setting) (attached : Option String) :
    Except Refusal Side := do
  let given ← side.settle
  match attached with
  | none => .ok { given := given, pending := .awaiting setting }
  | some value =>
    let given ← given.set value setting
    .ok { given := given }

def takeSwitch (side : Side) (switch : Switch) : Except Refusal Side := do
  let given ← side.settle
  let given ← given.turn switch
  .ok { given := given }

/-- Takes an option by its long name. A switch has no value. -/
def takeLong (scope : Scope) (side : Side) (name : String) (attached : Option String) :
    Except Refusal Side :=
  match scope.long? name, attached with
  | some (.setting setting), attached => side.takeSetting setting attached
  | some (.switch switch), none => side.takeSwitch switch
  | _, _ => .error .usage

def attachedTo : List Char → Option String
  | [] => none
  | '=' :: value => some (String.ofList value)
  | value => some (String.ofList value)

/-- Takes options by their letters, up to one that takes the rest as its value. -/
def takeLetters (scope : Scope) (side : Side) : List Char → Except Refusal Side
  | [] => .ok side
  | c :: rest =>
    match scope.short? c with
    | some (.setting setting) => side.takeSetting setting (attachedTo rest)
    | some (.switch switch) => do
      let side ← side.takeSwitch switch
      takeLetters scope side rest
    | none => .error .usage

def takeName (scope : Scope) (side : Side) (text : String) : Except Refusal Side :=
  match scope, side.given.key with
  | .inner .render, none => do
    let given ← side.settle
    .ok { given := { given with key := some ⟨text⟩ } }
  | _, _ => .error .usage

/-- Takes an argument that is no option: the awaited value, or a name. -/
def takePlain (scope : Scope) (side : Side) (text : String) : Except Refusal Side :=
  match side.pending with
  | .awaiting setting => .ok { side with pending := .holding setting text }
  | _ => side.takeName scope text

def takeNames (scope : Scope) (side : Side) (texts : List String) : Except Refusal Side :=
  texts.foldlM (takeName scope) side

end Side

/-- Help on a verb, on help itself, or in general: at most one word may follow. -/
def helpOn : List String → Refusal
  | [] => .help
  | [word] => if word = "help" || (Verb.ofWord? word).isSome then .help else .usage
  | _ => .usage

inductive Turn where
  | help
  | verb (verb : Verb)
deriving DecidableEq

/-- The word ends the outer part, unless a setting awaits it as its value. -/
def Side.turn? (scope : Scope) (side : Side) (text : String) : Option Turn :=
  match scope, side.pending with
  | .inner _, _ => none
  | .outer, .awaiting _ => none
  | .outer, _ => if text = "help" then some .help else (Verb.ofWord? text).map .verb

/-- Reads one side, up to a verb if it is the outer one; gives the verb and what stands behind it. -/
def readSide (scope : Scope) (side : Side) :
    List String → Except Refusal (Side × Option (Verb × List String))
  | [] => .ok (side, none)
  | text :: rest =>
    match side.turn? scope text with
    | some .help => .error (helpOn rest)
    | some (.verb verb) => .ok (side, some (verb, rest))
    | none =>
      match Form.of text with
      | .marker => do
        let side ← side.takeNames scope rest
        .ok (side, none)
      | .long name attached => do
        let side ← side.takeLong scope name attached
        readSide scope side rest
      | .letters letters => do
        let side ← side.takeLetters scope letters
        readSide scope side rest
      | .plain => do
        let side ← side.takePlain scope text
        readSide scope side rest

def read (arguments : List String) : Except Refusal Request := do
  let (outer, found) ← readSide .outer {} arguments
  let (verb, rest) ← orUsage found
  let (inner, _) ← readSide (.inner verb) {} rest
  let behind ← inner.settle
  let task ← behind.task verb
  let before ← outer.settle
  .ok (before.request behind task)

end ImplementorIndex.Arguments
