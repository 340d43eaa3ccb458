import ImplementorIndex.Registry.Scene

/-!
# Scenarios

Parameterised runs of a registry with a consumer that only collects, each with the check that the
promise it is about was kept. The promises themselves, for all runs, are matters of proof; a scenario
is one run that can be looked at.
-/

namespace ImplementorIndex.Scenario

/-- A call that returned. -/
inductive Call where
  | registered (payload : Payload) (outcome : Registration)
  | installed (outcome : Offer)
deriving DecidableEq

/-- What the consumer has seen, and the calls in the order in which they returned. -/
structure Record where
  seen : List Payload := []
  calls : List Call := []

structure Report where
  holds : Bool
  calls : List Call
  state : Snapshot

/-- Scenarios have one consumer; threads are named by numbers. -/
abbrev Setting := Scene Unit Nat Record

def start : Setting := { registry := {}, world := {} }

def see (payload : Payload) (setting : Setting) : Setting :=
  { setting with world := { setting.world with seen := setting.world.seen ++ [payload] } }

def returned (call : Call) (setting : Setting) : Setting :=
  { setting with world := { setting.world with calls := setting.world.calls ++ [call] } }

/-- The consumer that only collects. -/
def collect : Acceptor Unit Nat Record := fun _ _ payload setting => (see payload setting, .returned)

def register (accept : Acceptor Unit Nat Record) (extra thread : Nat) (payload : Payload)
    (setting : Setting) : Setting :=
  let (setting, outcome) := setting.register accept extra thread payload
  returned (.registered payload outcome) setting

def install (accept : Acceptor Unit Nat Record) (extra : Nat) (setting : Setting) : Setting :=
  let (setting, outcome) := setting.install accept extra 0 ()
  returned (.installed outcome) setting

/-- Registers payloads from their threads one after the other. -/
def registerAll (payloads : List (Nat × Payload)) (setting : Setting) : Setting :=
  payloads.foldl (fun setting sent => register collect 0 sent.1 sent.2 setting) setting

/-- Registers payloads from their threads, with the consumer installed after so many of them, or at
the end if there are fewer. -/
def play (payloads : List (Nat × Payload)) (installAt : Nat) : Setting :=
  registerAll (payloads.drop installAt) (install collect 0 (registerAll (payloads.take installAt) start))

def report (setting : Setting) (holds : Bool) : Report :=
  ⟨holds, setting.world.calls, setting.registry.snapshot⟩

def payloadOf (key name : String) (markups : List String) : Payload :=
  Payload.ofGroups ⟨key⟩ [(⟨name⟩, markups.map fun markup => { markup := markup })]

def commonTrait : String := "core::fmt::Debug"

def numbered (number : Nat) : String := "crate" ++ toString number

/-- So many payloads of distinct namespaces, all sent from one thread. -/
def series (total : Nat) (markups : List String) : List (Nat × Payload) :=
  (List.range total).map fun number => (0, payloadOf commonTrait (numbered number) markups)

/-- Wherever the installation lands, the consumer sees every payload once. -/
def noLoss (total installAt : Nat) : Report :=
  let sent := series total ["impl Debug for X"]
  let setting := play sent installAt
  let seen := setting.world.seen
  report setting
    (seen.length = total && sent.all (fun one => seen.count one.2 = 1) &&
      setting.registry.pending.isEmpty)

/-- Wherever the installation lands, the consumer sees the payloads in order of arrival. -/
def orderPreserved (total installAt : Nat) : Report :=
  let setting := play (series total []) installAt
  let order := setting.world.seen.map fun payload => payload.groups.names.head?.map Namespace.text
  report setting (order = (List.range total).map fun number => some (numbered number))

/-- A payload that the consumer registers itself comes after those already in the queue. -/
def reentrantFifo : Report :=
  let nested := payloadOf "nested::Trait" "inner" []
  let accept : Acceptor Unit Nat Record := fun me _ payload setting =>
    let setting := see payload setting
    if setting.world.seen.length = 1 then (register collect 0 me nested setting, .returned)
    else (setting, .returned)
  let setting := start
    |> register accept 1 0 (payloadOf "first::Trait" "a" [])
    |> register accept 1 0 (payloadOf "second::Trait" "b" [])
    |> install accept 1
  let order := setting.world.seen.map fun payload => payload.traitKey.text
  report setting
    (order = ["first::Trait", "second::Trait", "nested::Trait"] &&
      setting.world.calls.contains (.registered nested .queued))

/-- A registration from another thread while a delivery is running is told of its delivery after the
consumer has seen it. -/
def crossThreadWaits : Report :=
  let slow := payloadOf "slow::Trait" "a" []
  let fast := payloadOf "fast::Trait" "b" []
  let accept : Acceptor Unit Nat Record := fun _ _ payload setting =>
    if payload = slow then (see payload (register collect 0 0 fast setting), .returned)
    else (see payload setting, .returned)
  let setting := start |> install accept 1 |> register accept 1 1 slow
  report setting
    (setting.world.seen = [slow, fast] &&
      setting.world.calls.contains (.registered fast .delivered) &&
      setting.world.calls.contains (.registered slow .delivered) &&
      setting.registry.counters.delivered = 2)

def threadName (thread : Nat) : String := "t" ++ toString thread

/-- Payloads of several threads, round after round, and the installation half-way: each is seen once,
and those of one thread in their order. -/
def installRace (threads perThread : Nat) : Report :=
  let sent := (List.range perThread).flatMap fun round =>
    (List.range threads).map fun thread =>
      (thread + 1, payloadOf commonTrait (threadName thread) [toString round])
  let setting := play sent (sent.length / 2)
  let seen := setting.world.seen
  let own (thread : Nat) := seen.filterMap fun payload =>
    (payload.groups.get? ⟨threadName thread⟩).map fun entries => entries.map Entry.markup
  let expected := (List.range perThread).map fun round => [toString round]
  report setting
    (seen.length = threads * perThread &&
      (List.range threads).all (fun thread => own thread = expected) &&
      setting.registry.counters.delivered = threads * perThread)

def Report.queued (report : Report) : Nat :=
  report.calls.countP fun call =>
    match call with
    | .registered _ .queued => true
    | _ => false

end ImplementorIndex.Scenario
