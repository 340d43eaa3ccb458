import ImplementorIndex.Event

/-!
# The registry

Fragments and the consumer of their payloads start in no particular order. A registry takes payloads
at any time: it buffers those that arrive before a consumer is there and hands every payload over
exactly once, in order of arrival.

Three operations change a registry, and each is one atomic step of the thread that performs it:
`receive` takes a payload, `offer` offers a consumer, and `advance` ends one hand-over and begins the
next. The consumer itself is called between two steps, never inside one. Whoever finds the in-flight
queue idle becomes its deliverer and advances until the queue is empty; whoever else brings a payload
meanwhile either waits for it, or, being called from inside the consumer, leaves it queued. This
module holds the steps; who performs them when is not its concern.
-/

namespace ImplementorIndex

structure Counters where
  /-- payloads taken -/
  registered : Nat := 0
  /-- payloads that went into the buffer -/
  buffered : Nat := 0
  /-- hand-overs from which the consumer returned -/
  delivered : Nat := 0
  /-- hand-overs in which the consumer broke off -/
  panicked : Nat := 0
  /-- consumers turned away -/
  rejected : Nat := 0
deriving DecidableEq, Inhabited

/-- What a consumer leaves when it breaks off: a message, or something that is no text. -/
inductive Panic where
  | text (message : String)
  | wordless
deriving DecidableEq

def Panic.message : Panic → String
  | text message => message
  | wordless => "<non-string panic>"

/-- How a call of a consumer ended. -/
inductive Ending where
  | returned
  | panicked (cause : Panic)
deriving DecidableEq

/-- An attached registry: its consumer and its in-flight queue. The types `ι` and `τ` identify
consumers and threads. -/
structure Delivery (ι τ : Type) where
  consumer : ι
  /-- payloads taken and not yet handed over -/
  inflight : List Payload
  /-- the thread that hands them over, if one does -/
  deliverer : Option τ
  /-- payloads ever put into the queue -/
  enqueued : Nat
  /-- hand-overs that have ended -/
  completed : Nat
deriving DecidableEq

inductive Phase (ι τ : Type) where
  /-- No consumer yet; payloads are buffered. -/
  | awaiting (pending : List Payload)
  /-- A consumer is there; payloads are handed over. -/
  | attached (delivery : Delivery ι τ)
deriving DecidableEq

structure Registry (ι τ : Type) where
  label : String := "implementors"
  phase : Phase ι τ := .awaiting []
  counters : Counters := {}
deriving DecidableEq

inductive Receipt where
  /-- It is in the buffer, behind so many others. -/
  | buffered (position : Nat)
  /-- It is in the queue, and the caller must deliver. -/
  | deliver
  /-- It is in the queue, and the caller, who is delivering already, goes on with that. -/
  | queued
  /-- It is in the queue, and the caller waits until so many hand-overs have ended. -/
  | wait (ticket : Nat)
deriving DecidableEq

inductive Offer where
  /-- It is attached, and the caller must deliver what was buffered. -/
  | installed (flushed : Nat)
  /-- It was attached already. -/
  | kept
  /-- Another one is attached. -/
  | rejected
deriving DecidableEq

/-- What a caller that registers a payload is told. -/
inductive Registration where
  /-- There is no consumer yet; so many payloads wait in front. -/
  | buffered (position : Nat)
  /-- The consumer has seen the payload. -/
  | delivered
  /-- The call came from inside the consumer; the payload comes after those already queued. -/
  | queued
deriving DecidableEq

def Counters.count (counters : Counters) : Ending → Counters
  | .returned => { counters with delivered := counters.delivered + 1 }
  | .panicked _ => { counters with panicked := counters.panicked + 1 }

namespace Registry

variable {ι τ : Type} [DecidableEq ι] [DecidableEq τ]

def receive (registry : Registry ι τ) (me : τ) (payload : Payload) : Registry ι τ × Receipt :=
  let counters := { registry.counters with registered := registry.counters.registered + 1 }
  match registry.phase with
  | .awaiting pending =>
    ({ registry with
        phase := .awaiting (pending ++ [payload])
        counters := { counters with buffered := counters.buffered + 1 } },
      .buffered pending.length)
  | .attached delivery =>
    let delivery := { delivery with
      inflight := delivery.inflight ++ [payload]
      enqueued := delivery.enqueued + 1 }
    match delivery.deliverer with
    | none =>
      ({ registry with
          phase := .attached { delivery with deliverer := some me }
          counters := counters },
        .deliver)
    | some deliverer =>
      ({ registry with phase := .attached delivery, counters := counters },
        if deliverer = me then .queued else .wait delivery.enqueued)

/-- Offers a consumer on behalf of a thread. The first one stays. -/
def offer (registry : Registry ι τ) (me : τ) (consumer : ι) : Registry ι τ × Offer :=
  match registry.phase with
  | .awaiting pending =>
    ({ registry with
        phase := .attached
          { consumer := consumer
            inflight := pending
            deliverer := some me
            enqueued := pending.length
            completed := 0 } },
      .installed pending.length)
  | .attached delivery =>
    if delivery.consumer = consumer then (registry, .kept)
    else
      ({ registry with
          counters := { registry.counters with rejected := registry.counters.rejected + 1 } },
        .rejected)

/-- Ends the hand-over that is under way, if one is, and takes the next payload out of the queue. An
empty queue becomes idle. -/
def advance (registry : Registry ι τ) (last : Option Ending) : Registry ι τ × Option Payload :=
  match registry.phase with
  | .awaiting _ => (registry, none)
  | .attached delivery =>
    let counters := match last with
      | none => registry.counters
      | some ending => registry.counters.count ending
    let completed := match last with
      | none => delivery.completed
      | some _ => delivery.completed + 1
    match delivery.inflight with
    | [] =>
      ({ registry with
          phase := .attached { delivery with deliverer := none, completed := completed }
          counters := counters },
        none)
    | payload :: rest =>
      ({ registry with
          phase := .attached { delivery with inflight := rest, completed := completed }
          counters := counters },
        some payload)

/-- So many hand-overs have ended. A registry without a consumer keeps nobody waiting. -/
def completedThrough (registry : Registry ι τ) (ticket : Nat) : Bool :=
  match registry.phase with
  | .awaiting _ => true
  | .attached delivery => ticket ≤ delivery.completed

def isAttached (registry : Registry ι τ) : Bool :=
  match registry.phase with
  | .awaiting _ => false
  | .attached _ => true

def pending (registry : Registry ι τ) : List Payload :=
  match registry.phase with
  | .awaiting pending => pending
  | .attached _ => []

/-- The payloads taken and not yet handed over, in either phase. -/
def queue (registry : Registry ι τ) : List Payload :=
  match registry.phase with
  | .awaiting pending => pending
  | .attached delivery => delivery.inflight

def abandon (registry : Registry ι τ) : List Event :=
  if registry.pending.isEmpty then []
  else [.registryAbandoned registry.label registry.pending.length]

def rejection (registry : Registry ι τ) : String :=
  "registry " ++ registry.label ++ ": a different implementor consumer is already installed"

def inspect (registry : Registry ι τ) : String :=
  let counters := registry.counters
  Text.inspectRecord "Registry"
    [("label", Text.quoted registry.label),
     ("phase", if registry.isAttached then "Attached" else "AwaitingConsumer"),
     ("queued", toString registry.queue.length),
     ("stats", Text.inspectRecord "RegistryStats"
       [("registered", toString counters.registered),
        ("buffered", toString counters.buffered),
        ("delivered", toString counters.delivered),
        ("consumer_panics", toString counters.panicked),
        ("rejected_installs", toString counters.rejected)])]

end Registry

structure Snapshot where
  attached : Bool
  pending : Nat
  counters : Counters
deriving DecidableEq

def Registry.snapshot {ι τ : Type} (registry : Registry ι τ) : Snapshot :=
  ⟨registry.isAttached, registry.pending.length, registry.counters⟩

end ImplementorIndex
