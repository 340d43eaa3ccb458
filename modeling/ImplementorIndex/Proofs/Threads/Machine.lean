import Mathlib.Logic.Function.Basic
import ImplementorIndex.Registry.Basic

/-!
# Threads at one registry

Any number of threads call one registry at the same time. Every critical section of the registry
(`receive`, `offer`, `advance`, and the look of a waiting caller at the counters) is one atomic step
of one thread. Between these steps a consumer that is being called may make calls of its own on the
same thread, and then returns or breaks off. Which thread moves next, which calls are made and how a
consumer behaves is left open: a schedule decides it, and the results hold for every schedule.

Beside the registry and the calls under way a world keeps the history of what happened. No step looks
at the history, the numbers that identify payloads and hand-overs apart.
-/

namespace ImplementorIndex.Threads

inductive Call (ι : Type) where
  | register (payload : Payload)
  | install (consumer : ι)
deriving DecidableEq

inductive Reply where
  | registration (outcome : Registration)
  | installation (outcome : Offer)
deriving DecidableEq

/-- Where a call stands between two steps of its thread. -/
inductive Stage (ι : Type) where
  /-- begun, and the registry not yet entered -/
  | entering
  /-- waiting until so many hand-overs have ended; a parked caller does not look before it is woken -/
  | waiting (ticket : Nat) (parked : Bool)
  /-- delivering, outside the consumer, which ended as noted if it was called -/
  | pumping (reply : Reply) (consumer : ι) (last : Option Ending)
  /-- delivering, inside the consumer, with the number of the hand-over -/
  | accepting (reply : Reply) (number : Nat) (consumer : ι) (payload : Payload)
  /-- done, and about to return -/
  | leaving (reply : Reply)
deriving DecidableEq

/-- A call under way. Its arrival is the number of payloads that arrived before it entered the
registry, which for a registration is the number of its own payload. -/
structure Frame (ι : Type) where
  call : Call ι
  arrival : Nat
  stage : Stage ι
deriving DecidableEq

inductive Occurrence (ι τ : Type) where
  | called (thread : τ) (call : Call ι)
  | received (thread : τ) (payload : Payload) (receipt : Receipt)
  | offered (thread : τ) (consumer : ι) (offer : Offer)
  | handedOver (thread : τ) (consumer : ι) (payload : Payload)
  | ended (thread : τ) (number : Nat) (ending : Ending)
  | returned (thread : τ) (call : Call ι) (arrival : Nat) (reply : Reply)
deriving DecidableEq

inductive Move (ι : Type) where
  /-- begins a call, at the top level or inside a consumer -/
  | call (call : Call ι)
  /-- takes the next step of the innermost call -/
  | proceed
  /-- ends the consumer that the innermost call is inside of -/
  | finish (ending : Ending)
deriving DecidableEq

/-- A registry, the calls under way on each thread, the innermost first, and what happened so far. -/
structure World (ι τ : Type) where
  registry : Registry ι τ
  frames : τ → List (Frame ι)
  history : List (Occurrence ι τ)

variable {ι τ : Type}

namespace Occurrence

@[simp] def arrival? : Occurrence ι τ → Option (τ × Payload)
  | received thread payload _ => some (thread, payload)
  | _ => none

@[simp] def handedOver? : Occurrence ι τ → Option Payload
  | handedOver _ _ payload => some payload
  | _ => none

@[simp] def ending? : Occurrence ι τ → Option (Nat × Ending)
  | ended _ number ending => some (number, ending)
  | _ => none

@[simp] def registration? : Occurrence ι τ → Option (τ × Payload)
  | called thread (.register payload) => some (thread, payload)
  | _ => none

end Occurrence

section History

/-- The payloads registered, with their threads, in the order of the critical sections. -/
def arrivals (history : List (Occurrence ι τ)) : List (τ × Payload) :=
  history.filterMap Occurrence.arrival?

/-- The payloads handed to a consumer, in the order in which they left the queue. -/
def handed (history : List (Occurrence ι τ)) : List Payload :=
  history.filterMap Occurrence.handedOver?

def endings (history : List (Occurrence ι τ)) : List (Nat × Ending) :=
  history.filterMap Occurrence.ending?

/-- The registrations begun, with their threads, in the order in which they began. -/
def registrations (history : List (Occurrence ι τ)) : List (τ × Payload) :=
  history.filterMap Occurrence.registration?

variable (history later : List (Occurrence ι τ)) (occurrence : Occurrence ι τ)

@[simp] theorem arrivals_nil : arrivals ([] : List (Occurrence ι τ)) = [] := rfl

@[simp] theorem handed_nil : handed ([] : List (Occurrence ι τ)) = [] := rfl

@[simp] theorem endings_nil : endings ([] : List (Occurrence ι τ)) = [] := rfl

@[simp] theorem registrations_nil : registrations ([] : List (Occurrence ι τ)) = [] := rfl

@[simp] theorem arrivals_append : arrivals (history ++ later) = arrivals history ++ arrivals later :=
  List.filterMap_append

@[simp] theorem arrivals_cons :
    arrivals (occurrence :: later) = occurrence.arrival?.toList ++ arrivals later := by
  cases occurrence <;> rfl

@[simp] theorem handed_append : handed (history ++ later) = handed history ++ handed later :=
  List.filterMap_append

@[simp] theorem handed_cons :
    handed (occurrence :: later) = occurrence.handedOver?.toList ++ handed later := by
  cases occurrence <;> rfl

@[simp] theorem endings_append : endings (history ++ later) = endings history ++ endings later :=
  List.filterMap_append

@[simp] theorem endings_cons :
    endings (occurrence :: later) = occurrence.ending?.toList ++ endings later := by
  cases occurrence <;> rfl

@[simp] theorem registrations_append :
    registrations (history ++ later) = registrations history ++ registrations later :=
  List.filterMap_append

@[simp] theorem registrations_cons : registrations (occurrence :: later) =
    occurrence.registration?.toList ++ registrations later := by
  cases occurrence with
  | called thread call => cases call <;> rfl
  | _ => rfl

end History

section Own

variable {α : Type} [DecidableEq τ] {thread other : τ}

/-- What belongs to one thread, in order. -/
def own (thread : τ) (list : List (τ × α)) : List α :=
  (list.filter fun item => item.1 = thread).map Prod.snd

@[simp] theorem own_append (thread : τ) (left right : List (τ × α)) :
    own thread (left ++ right) = own thread left ++ own thread right := by
  simp [own]

@[simp] theorem own_self (thread : τ) (list : List α) :
    own thread (list.map fun item => (thread, item)) = list := by
  simp [own, List.filter_map, Function.comp_def]

theorem own_other (ne : other ≠ thread) (list : List α) :
    own other (list.map fun item => (thread, item)) = [] := by
  simp [own, Ne.symm ne]

end Own

namespace Stage

/-- The call delivers: it is the one that hands over what is queued. -/
def drains : Stage ι → Bool
  | entering => false
  | waiting _ _ => false
  | pumping _ _ _ => true
  | accepting _ _ _ _ => true
  | leaving _ => false

def isAccepting : Stage ι → Bool
  | entering => false
  | waiting _ _ => false
  | pumping _ _ _ => false
  | accepting _ _ _ _ => true
  | leaving _ => false

/-- A parked caller is woken; nobody else is affected. -/
def wake : Stage ι → Stage ι
  | waiting ticket _ => waiting ticket false
  | stage => stage

theorem drains_of_isAccepting {stage : Stage ι} (h : stage.isAccepting = true) :
    stage.drains = true := by
  cases stage <;> simp_all [isAccepting, drains]

@[simp] theorem drains_wake (stage : Stage ι) : stage.wake.drains = stage.drains := by
  cases stage <;> rfl

@[simp] theorem isAccepting_wake (stage : Stage ι) :
    stage.wake.isAccepting = stage.isAccepting := by
  cases stage <;> rfl

end Stage

def Frame.wake (frame : Frame ι) : Frame ι := { frame with stage := frame.stage.wake }

@[simp] theorem Frame.stage_wake (frame : Frame ι) : frame.wake.stage = frame.stage.wake := rfl

def pumpStage (registry : Registry ι τ) (reply : Reply) : Stage ι :=
  match registry.phase with
  | .awaiting _ => .leaving reply
  | .attached delivery => .pumping reply delivery.consumer none

/-- A caller that holds a ticket looks at the counters: it leaves, or parks. -/
def waitStage (registry : Registry ι τ) (ticket : Nat) : Stage ι :=
  if registry.completedThrough ticket then .leaving (.registration .delivered)
  else .waiting ticket true

def receiptStage (registry : Registry ι τ) : Receipt → Stage ι
  | .buffered position => .leaving (.registration (.buffered position))
  | .deliver => pumpStage registry (.registration .delivered)
  | .queued => .leaving (.registration .queued)
  | .wait ticket => waitStage registry ticket

def offerStage (consumer : ι) : Offer → Stage ι
  | .installed flushed => .pumping (.installation (.installed flushed)) consumer none
  | .kept => .leaving (.installation .kept)
  | .rejected => .leaving (.installation .rejected)

namespace World

def start (label : String) : World ι τ := ⟨{ label := label }, fun _ => [], []⟩

/-- A thread may begin a call when it is in none, or inside the consumer. -/
def mayCall (world : World ι τ) (thread : τ) : Bool :=
  match world.frames thread with
  | [] => true
  | frame :: _ => frame.stage.isAccepting

variable [DecidableEq ι] [DecidableEq τ]

def enter (world : World ι τ) (thread : τ) (call : Call ι) (rest : List (Frame ι)) : World ι τ :=
  let arrival := (arrivals world.history).length
  match call with
  | .register payload =>
    let (registry, receipt) := world.registry.receive thread payload
    { registry := registry
      frames := Function.update world.frames thread
        (⟨call, arrival, receiptStage registry receipt⟩ :: rest)
      history := world.history ++ [.received thread payload receipt] }
  | .install consumer =>
    let (registry, offer) := world.registry.offer thread consumer
    { registry := registry
      frames := Function.update world.frames thread
        (⟨call, arrival, offerStage consumer offer⟩ :: rest)
      history := world.history ++ [.offered thread consumer offer] }

/-- The frames after an end of a consumer call was counted: all who are parked are woken. -/
def notified (world : World ι τ) (last : Option Ending) : τ → List (Frame ι) :=
  match last with
  | none => world.frames
  | some _ => fun thread => (world.frames thread).map Frame.wake

def pump (world : World ι τ) (thread : τ) (frame : Frame ι) (rest : List (Frame ι)) (reply : Reply)
    (consumer : ι) (last : Option Ending) : World ι τ :=
  match world.registry.advance last with
  | (registry, none) =>
    { world with
      registry := registry
      frames := Function.update (world.notified last) thread
        ({ frame with stage := .leaving reply } :: rest) }
  | (registry, some payload) =>
    let number := (handed world.history).length
    { registry := registry
      frames := Function.update (world.notified last) thread
        ({ frame with stage := .accepting reply number consumer payload } :: rest)
      history := world.history ++ [.handedOver thread consumer payload] }

/-- The next step of the innermost call of a thread. Nothing happens to a parked caller, and a call
inside the consumer goes on when the consumer does. -/
def proceed (world : World ι τ) (thread : τ) : Option (World ι τ) :=
  match world.frames thread with
  | [] => none
  | frame :: rest =>
    match frame.stage with
    | .entering => some (world.enter thread frame.call rest)
    | .waiting _ true => none
    | .waiting ticket false =>
      some { world with
        frames := Function.update world.frames thread
          ({ frame with stage := waitStage world.registry ticket } :: rest) }
    | .pumping reply consumer last => some (world.pump thread frame rest reply consumer last)
    | .accepting _ _ _ _ => none
    | .leaving reply =>
      some { world with
        frames := Function.update world.frames thread rest
        history := world.history ++ [.returned thread frame.call frame.arrival reply] }

def finish (world : World ι τ) (thread : τ) (ending : Ending) : Option (World ι τ) :=
  match world.frames thread with
  | ⟨call, arrival, .accepting reply number consumer _⟩ :: rest =>
    some { world with
      frames := Function.update world.frames thread
        (⟨call, arrival, .pumping reply consumer (some ending)⟩ :: rest)
      history := world.history ++ [.ended thread number ending] }
  | _ => none

/-- One step of one thread, if the thread can move that way. -/
def step (world : World ι τ) (thread : τ) : Move ι → Option (World ι τ)
  | .call call =>
    if world.mayCall thread then
      some { world with
        frames := Function.update world.frames thread
          (⟨call, 0, .entering⟩ :: world.frames thread)
        history := world.history ++ [.called thread call] }
    else none
  | .proceed => world.proceed thread
  | .finish ending => world.finish thread ending

def run (world : World ι τ) : List (τ × Move ι) → Option (World ι τ)
  | [] => some world
  | (thread, move) :: rest => (world.step thread move).bind fun next => next.run rest

end World

/-- The worlds that some schedule reaches from a fresh registry. -/
def Reachable [DecidableEq ι] [DecidableEq τ] (world : World ι τ) : Prop :=
  ∃ label schedule, (World.start label).run schedule = some world

end ImplementorIndex.Threads
