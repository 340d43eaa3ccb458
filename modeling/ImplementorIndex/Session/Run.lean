import ImplementorIndex.Registry.Fragment
import ImplementorIndex.Session.Basic

/-!
# Performing sessions

The steps of a session are performed one after the other on one thread. Consumers act in between:
a page merges, a script performs the actions of the rule it uses. Calls nest as deep as rules can
be used, so the number of uses left bounds the nesting, and the number of actions left bounds the
payloads that consumers can add to the queue while it is drained.
-/

namespace ImplementorIndex.Session

/-- The scene of a session: consumers and threads are named by numbers. -/
abbrev Stage := Scene Nat Nat World

def mainThread : Nat := 0

def onWorld (change : World → World) (stage : Stage) : Stage :=
  { stage with world := change stage.world }

/-- Applies an operation that changes a page. A position without a page is left alone. -/
def onPage (index : Nat) (change : Page → Logged Page) (stage : Stage) : Stage :=
  match stage.world.page? index with
  | none => stage
  | some page =>
    let changed := change page
    { stage with
      world := stage.world.setConsumer index (.page changed.value)
      log := stage.log ++ changed.events }

def ofPage (index : Nat) (ask : Page → Answer) (stage : Stage) : Answer :=
  match stage.world.page? index with
  | none => .nothing
  | some page => ask page

/-- Performs one step on a thread, given how consumers accept and the payload being handed over. -/
def perform (accept : Acceptor Nat Nat World) (me : Nat) (current : Option Payload) (step : Step)
    (stage : Stage) : Stage × Except Panic Answer :=
  let extra := stage.world.actions
  match step with
  | .register payload =>
    let (stage, outcome) := stage.register accept extra me payload
    (stage, .ok (.registration outcome))
  | .registerFragment key text =>
    let (stage, outcome) := stage.registerFragment accept extra me key text
    match outcome with
    | .ok registration => (stage, .ok (.registration registration))
    | .error problem => (stage, .ok (.malformed problem))
  | .install consumer =>
    let (stage, outcome) := stage.install accept extra me consumer
    match outcome with
    | .rejected => (stage, .ok (.rejection stage.registry.rejection))
    | outcome => (stage, .ok (.offer outcome))
  | .accept consumer given =>
    match current.or given with
    | none => (stage, .ok .nothing)
    | some payload =>
      match accept me consumer payload stage with
      | (stage, .returned) => (stage, .ok .nothing)
      | (stage, .panicked cause) => (stage, .error cause)
  | .spawnRegister payload =>
    -- A number above that of the calling thread belongs to no thread that is still at work.
    let thread := me + stage.world.spawned.length + 1
    let (stage, outcome) := stage.register accept extra thread payload
    (onWorld (fun world => { world with spawned := world.spawned ++ [outcome] }) stage, .ok .nothing)
  | .panic cause => (stage, .error cause)
  | .newRegistry label =>
    let fresh : Registry Nat Nat := match label with
      | none => {}
      | some label => { label := label }
    ({ stage with registry := fresh, log := stage.log ++ stage.registry.abandon }, .ok .nothing)
  | .snapshot => (stage, .ok (.snapshot stage.registry.snapshot))
  | .label => (stage, .ok (.text stage.registry.label))
  | .inspect => (stage, .ok (.text stage.registry.inspect))
  | .implementors page key => (stage, .ok (ofPage page (fun p => .entries (p.implementors key)) stage))
  | .sectionOf page key => (stage, .ok (ofPage page (fun p => .shown (p.sectionOf key)) stage))
  | .summary page => (stage, .ok (ofPage page (fun p => .summary p.summary) stage))
  | .display page key =>
    let stage := onPage page (fun p => p.display key) stage
    (stage, .ok (ofPage page (fun p => .rendering p.rendered) stage))
  | .rendered page => (stage, .ok (ofPage page (fun p => .rendering p.rendered) stage))
  | .inspectPage page => (stage, .ok (ofPage page (fun p => .text p.inspect) stage))

/-- Performs the actions of a script in order, until one breaks it off. -/
def performActions (act : Step → Stage → Stage × Except Panic Answer) (consumer : Nat) :
    List Step → Stage → Stage × Ending
  | [], stage => (stage, .returned)
  | action :: rest, stage =>
    match act action stage with
    | (stage, .error cause) => (stage, .panicked cause)
    | (stage, .ok answer) =>
      performActions act consumer rest (onWorld (·.happen (.acted consumer answer)) stage)

/-- How the consumers of a session take payloads, with rules used at most so many deep. -/
def accept : Nat → Acceptor Nat Nat World
  | depth, me, consumer, payload, stage =>
    match stage.world.consumers[consumer]? with
    | none => (stage, .returned)
    | some (.page _) => (onPage consumer (fun p => p.accept payload) stage, .returned)
    | some (.script rules) =>
      let stage := onWorld (·.happen (.accepted consumer payload)) stage
      match useRule payload.traitKey rules with
      | none => (stage, .returned)
      | some (actions, rules) =>
        match depth with
        | 0 => (stage, .returned)
        | depth + 1 =>
          performActions (perform (accept depth) me (some payload)) consumer actions
            (onWorld (·.setConsumer consumer (.script rules)) stage)

def runStep (step : Step) (stage : Stage) : Except Panic (Stage × StepReport) := do
  let fresh : Stage :=
    { stage with world := { stage.world with happenings := [], spawned := [] }, log := [] }
  let (stage, answer) := perform (accept stage.world.uses) mainThread none step fresh
  let answer ← answer
  return (stage,
    { answer := answer
      state := stage.registry.snapshot
      happenings := stage.world.happenings
      spawned := stage.world.spawned
      log := stage.log })

def runSteps : List Step → Stage → Except Panic (List StepReport)
  | [], _ => .ok []
  | step :: rest, stage => do
    let (stage, report) ← runStep step stage
    return report :: (← runSteps rest stage)

/-- Performs a session on a fresh registry. A script that breaks off outside any hand-over breaks
the session off. -/
def run (label : Option String) (consumers : List Consumer) (steps : List Step) :
    Except Panic (List StepReport) :=
  let registry : Registry Nat Nat := match label with
    | none => {}
    | some label => { label := label }
  runSteps steps { registry := registry, world := { consumers := consumers } }

end ImplementorIndex.Session
