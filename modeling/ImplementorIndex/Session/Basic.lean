import ImplementorIndex.Fragment.Malformed
import ImplementorIndex.Page
import ImplementorIndex.Registry.Basic

/-!
# Sessions: steps, consumers and answers

A session drives one registry through a list of steps and watches what comes of it. Its consumers
are pages and scripts. A script answers payloads with actions, which are steps themselves; every
rule of a script can be used a limited number of times, so a session always comes to its end. This
module holds the data of a session; `Session.Run` performs it.
-/

namespace ImplementorIndex.Session

/-- One thing to do. Consumers are named by their position. -/
inductive Step where
  | register (payload : Payload)
  | registerFragment (key : TraitKey) (text : String)
  | install (consumer : Nat)
  /-- Hands a payload to a consumer without the registry; inside an action, the payload that is
  being handed over. -/
  | accept (consumer : Nat) (payload : Option Payload)
  /-- Registers from another thread, which waits for the deliverer. -/
  | spawnRegister (payload : Payload)
  /-- Breaks the consumer off. -/
  | panic (cause : Panic)
  /-- Gives the registry up for a fresh one. -/
  | newRegistry (label : Option String)
  | snapshot
  | label
  | inspect
  | implementors (page : Nat) (key : TraitKey)
  | sectionOf (page : Nat) (key : TraitKey)
  | summary (page : Nat)
  | display (page : Nat) (key : TraitKey)
  | rendered (page : Nat)
  | inspectPage (page : Nat)

inductive Answer where
  | nothing
  | registration (outcome : Registration)
  | malformed (problem : Fragment.Malformed)
  | offer (outcome : Offer)
  /-- The message for a consumer that was turned away. -/
  | rejection (message : String)
  | snapshot (seen : Snapshot)
  | text (text : String)
  | entries (entries : List Entry)
  | shown (shown : Section)
  | summary (lines : List TraitSummary)
  | rendering (rendering : Rendering)

/-- A rule of a script: the trait it waits for (any, if none), how often it can still be used, and
what to do. -/
structure Rule where
  trigger : Option TraitKey
  times : Nat := 1
  actions : List Step

inductive Consumer where
  | page (page : Page)
  | script (rules : List Rule)

inductive Happening where
  /-- A script took a payload. -/
  | accepted (consumer : Nat) (payload : Payload)
  /-- An action of a script was done. -/
  | acted (consumer : Nat) (answer : Answer)

/-- The consumers of a session, and what has happened in the step under way. -/
structure World where
  consumers : List Consumer
  happenings : List Happening := []
  /-- what the threads spawned by actions were told -/
  spawned : List Registration := []

structure StepReport where
  answer : Answer
  state : Snapshot
  happenings : List Happening
  spawned : List Registration
  log : List Event

namespace Rule

/-- The rule can be used for a payload of the trait. -/
def applies (rule : Rule) (key : TraitKey) : Bool :=
  (rule.trigger = none || rule.trigger = some key) && 0 < rule.times

def spent (rule : Rule) : Rule := { rule with times := rule.times - 1 }

end Rule

/-- Uses the first rule that applies: its actions, and the rules left. -/
def useRule (key : TraitKey) : List Rule → Option (List Step × List Rule)
  | [] => none
  | rule :: rest =>
    if rule.applies key then some (rule.actions, rule.spent :: rest)
    else (useRule key rest).map fun found => (found.1, rule :: found.2)

namespace Consumer

def uses : Consumer → Nat
  | page _ => 0
  | script rules => rules.foldr (fun rule count => rule.times + count) 0

def actions : Consumer → Nat
  | page _ => 0
  | script rules => rules.foldr (fun rule count => rule.times * rule.actions.length + count) 0

end Consumer

namespace World

def uses (world : World) : Nat :=
  world.consumers.foldr (fun consumer count => consumer.uses + count) 0

def actions (world : World) : Nat :=
  world.consumers.foldr (fun consumer count => consumer.actions + count) 0

def setConsumer (world : World) (index : Nat) (consumer : Consumer) : World :=
  { world with consumers := world.consumers.set index consumer }

def page? (world : World) (index : Nat) : Option Page :=
  match world.consumers[index]? with
  | some (.page page) => some page
  | _ => none

def happen (world : World) (happening : Happening) : World :=
  { world with happenings := world.happenings ++ [happening] }

end World

end ImplementorIndex.Session
