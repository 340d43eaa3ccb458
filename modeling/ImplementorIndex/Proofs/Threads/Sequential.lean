import ImplementorIndex.Proofs.Threads.Transition
import ImplementorIndex.Registry.Scene

/-!
# The same calls one after the other

Calls on a registry whose consumers make no calls of their own, each run to its end before the next
begins. The consumers are described by how they end, a function of the payload; what they are called
with is recorded. Between two such calls the queue is idle, so every call is described completely by
what it does to a registry that awaits its consumer or has handed over all it has.
-/

namespace ImplementorIndex

variable {ι κ τ : Type}

def Counters.countAll (counters : Counters) (endings : List Ending) : Counters :=
  endings.foldl Counters.count counters

@[simp] theorem Counters.countAll_nil (counters : Counters) : counters.countAll [] = counters := rfl

@[simp] theorem Counters.countAll_cons (counters : Counters) (ending : Ending)
    (later : List Ending) :
    counters.countAll (ending :: later) = (counters.count ending).countAll later := rfl

@[simp] theorem Counters.countAll_append (counters : Counters) (earlier later : List Ending) :
    counters.countAll (earlier ++ later) = (counters.countAll earlier).countAll later :=
  List.foldl_append

namespace Threads

def recorder (behaves : ι → Payload → Ending) : Acceptor ι κ (List (ι × Payload)) :=
  fun _ consumer payload scene =>
    ({ scene with world := scene.world ++ [(consumer, payload)] }, behaves consumer payload)

/-- The registry of a scene together with the consumer calls made so far. -/
abbrev Stand (ι κ : Type) := Scene ι κ (List (ι × Payload))

variable [DecidableEq ι] [DecidableEq κ]

def perform (behaves : ι → Payload → Ending) (me : κ) (call : Call ι) (stand : Stand ι κ) :
    Stand ι κ × Reply :=
  match call with
  | .register payload =>
    let (stand, outcome) := stand.register (recorder behaves) 0 me payload
    (stand, .registration outcome)
  | .install consumer =>
    let (stand, outcome) := stand.install (recorder behaves) 0 me consumer
    (stand, .installation outcome)

/-- Calls made one after the other: where they lead, and what each thread was told. -/
structure Play (ι κ τ : Type) where
  stand : Stand ι κ
  answers : List (τ × Call ι × Reply)

def Play.start (label : String) : Play ι κ τ := ⟨{ registry := { label := label }, world := [] }, []⟩

def Play.add (behaves : ι → Payload → Ending) (place : τ → κ) (play : Play ι κ τ)
    (made : τ × Call ι) : Play ι κ τ :=
  let (stand, reply) := perform behaves (place made.1) made.2 play.stand
  ⟨stand, play.answers ++ [(made.1, made.2, reply)]⟩

def sequentially (behaves : ι → Payload → Ending) (place : τ → κ) (label : String)
    (calls : List (τ × Call ι)) : Play ι κ τ :=
  calls.foldl (Play.add behaves place) (Play.start label)

theorem sequentially_concat (behaves : ι → Payload → Ending) (place : τ → κ) (label : String)
    (calls : List (τ × Call ι)) (made : τ × Call ι) :
    sequentially behaves place label (calls ++ [made]) =
      (sequentially behaves place label calls).add behaves place made := by
  rw [sequentially, List.foldl_append]
  rfl

section Delivery

variable (behaves : ι → Payload → Ending) (me : κ) (stand : Stand ι κ) {delivery : Delivery ι κ}

omit [DecidableEq ι] [DecidableEq κ] in
theorem deliver_recorder (consumer : ι) (payload : Payload) :
    ∃ log, Scene.deliver (recorder behaves) me consumer payload stand =
      (⟨stand.registry, stand.world ++ [(consumer, payload)], log⟩, behaves consumer payload) := by
  unfold Scene.deliver recorder
  cases ending : behaves consumer payload with
  | returned => exact ⟨_, by simp only [Scene.note]; rfl⟩
  | panicked cause => exact ⟨_, by simp only [Scene.note]; rfl⟩

omit [DecidableEq ι] [DecidableEq κ] in
/-- Draining hands over the whole queue in order and counts how each hand-over ended. -/
theorem drain_recorder (consumer : ι) (last : Option Ending) {queue : List Payload} {most : Nat}
    (phase : stand.registry.phase = .attached delivery) (waiting : delivery.inflight = queue)
    (room : queue.length < most) :
    ∃ log, Scene.drain (recorder behaves) me consumer most last stand =
      ⟨{ stand.registry with
          phase := .attached { delivery with
            inflight := []
            deliverer := none
            completed := delivery.completed + Counters.ends last + queue.length }
          counters := (stand.registry.counters.settle last).countAll (queue.map (behaves consumer)) },
        stand.world ++ queue.map fun payload => (consumer, payload), log⟩ := by
  induction queue generalizing stand delivery most last with
  | nil =>
    obtain ⟨most, rfl⟩ : ∃ fewer, most = fewer + 1 := ⟨most - 1, by simp at room; omega⟩
    refine ⟨stand.log, ?_⟩
    simp only [Scene.drain, Registry.advance_attached phase, waiting]
    simp
  | cons payload rest ih =>
    obtain ⟨most, rfl⟩ : ∃ fewer, most = fewer + 1 := ⟨most - 1, by omega⟩
    simp only [Scene.drain, Registry.advance_attached phase, waiting]
    generalize shorter : { stand.registry with
      phase := .attached { delivery with
        inflight := rest, completed := delivery.completed + Counters.ends last }
      counters := stand.registry.counters.settle last } = registry
    obtain ⟨noted, delivered⟩ :=
      deliver_recorder behaves me { stand with registry := registry } consumer payload
    rw [delivered]
    have attached : registry.phase = .attached { delivery with
        inflight := rest, completed := delivery.completed + Counters.ends last } := by
      rw [← shorter]
    obtain ⟨log, drained⟩ := ih ⟨registry, stand.world ++ [(consumer, payload)], noted⟩
      (some (behaves consumer payload)) attached rfl (Nat.lt_of_succ_lt_succ room)
    refine ⟨log, drained.trans ?_⟩
    have count : delivery.completed + Counters.ends last +
        Counters.ends (some (behaves consumer payload)) + rest.length =
        delivery.completed + Counters.ends last + (rest.length + 1) := by
      simp only [Counters.ends]
      omega
    simp [← shorter, count, Counters.settle]

omit [DecidableEq ι] [DecidableEq κ] in
theorem pump_recorder (phase : stand.registry.phase = .attached delivery) :
    ∃ log, stand.pump (recorder behaves) 0 me =
      ⟨{ stand.registry with
          phase := .attached { delivery with
            inflight := []
            deliverer := none
            completed := delivery.completed + delivery.inflight.length }
          counters := stand.registry.counters.countAll
            (delivery.inflight.map (behaves delivery.consumer)) },
        stand.world ++ delivery.inflight.map fun payload => (delivery.consumer, payload), log⟩ := by
  obtain ⟨log, drained⟩ := drain_recorder behaves me stand delivery.consumer none phase rfl
    (Nat.lt_succ_self (delivery.inflight.length + 0))
  refine ⟨log, ?_⟩
  simp only [Scene.pump, phase]
  exact drained

end Delivery

section Calls

variable (behaves : ι → Payload → Ending) (me : κ) {stand : Stand ι κ} {payload : Payload}
  {consumer attached : ι} {pending : List Payload} {number : Nat}

/-- An attached registry whose queue is idle, after so many hand-overs. -/
def idle (consumer : ι) (number : Nat) : Phase ι κ := .attached ⟨consumer, [], none, number, number⟩

theorem perform_register_awaiting (phase : stand.registry.phase = .awaiting pending) :
    ∃ log, perform behaves me (.register payload) stand =
      (⟨{ stand.registry with
          phase := .awaiting (pending ++ [payload])
          counters := { stand.registry.counters with
            registered := stand.registry.counters.registered + 1
            buffered := stand.registry.counters.buffered + 1 } }, stand.world, log⟩,
        .registration (.buffered pending.length)) := by
  refine ⟨stand.log ++ [.buffered stand.registry.label payload.traitKey
    payload.groups.namespaceCount pending.length], ?_⟩
  simp only [perform, Scene.register, Registry.receive, phase, Scene.note]

theorem perform_register_idle (phase : stand.registry.phase = idle attached number) :
    ∃ log, perform behaves me (.register payload) stand =
      (⟨{ stand.registry with
          phase := idle attached (number + 1)
          counters := { stand.registry.counters with
            registered := stand.registry.counters.registered + 1 }.count (behaves attached payload) },
        stand.world ++ [(attached, payload)], log⟩, .registration .delivered) := by
  have received : (stand.registry.receive me payload).1.phase =
      .attached ⟨attached, [payload], some me, number + 1, number⟩ := by
    simp [Registry.receive, phase, idle]
  obtain ⟨log, pumped⟩ := pump_recorder behaves me
    { stand with registry := (stand.registry.receive me payload).1 } received
  refine ⟨log, ?_⟩
  simp only [perform, Scene.register, Registry.receive, phase, idle] at pumped ⊢
  rw [pumped]
  rfl

theorem perform_install_awaiting (phase : stand.registry.phase = .awaiting pending) :
    ∃ log, perform behaves me (.install consumer) stand =
      (⟨{ stand.registry with
          phase := idle consumer pending.length
          counters := stand.registry.counters.countAll (pending.map (behaves consumer)) },
        stand.world ++ pending.map fun payload => (consumer, payload), log⟩,
        .installation (.installed pending.length)) := by
  have offered : (stand.registry.offer me consumer).1.phase =
      .attached ⟨consumer, pending, some me, pending.length, 0⟩ := by
    simp [Registry.offer, phase]
  obtain ⟨log, pumped⟩ := pump_recorder behaves me
    ({ stand with registry := (stand.registry.offer me consumer).1 }.note
      (.consumerAttached (stand.registry.offer me consumer).1.label pending.length)) offered
  refine ⟨log, ?_⟩
  simp only [perform, Scene.install, Registry.offer, phase, idle] at pumped ⊢
  rw [pumped]
  simp [Scene.note]

theorem perform_install_same (phase : stand.registry.phase = idle attached number) :
    ∃ log, perform behaves me (.install attached) stand =
      (⟨stand.registry, stand.world, log⟩, .installation .kept) := by
  refine ⟨stand.log ++ [.consumerKept stand.registry.label], ?_⟩
  simp only [perform, Scene.install, Registry.offer, phase, idle, if_pos, Scene.note]

theorem perform_install_other (phase : stand.registry.phase = idle attached number)
    (other : attached ≠ consumer) :
    ∃ log, perform behaves me (.install consumer) stand =
      (⟨{ stand.registry with
          counters := { stand.registry.counters with
            rejected := stand.registry.counters.rejected + 1 } }, stand.world, log⟩,
        .installation .rejected) := by
  refine ⟨stand.log ++ [.consumerRejected stand.registry.label], ?_⟩
  simp only [perform, Scene.install, Registry.offer, phase, idle, if_neg other, Scene.note]

end Calls

end Threads

end ImplementorIndex
