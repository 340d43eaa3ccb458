import ImplementorIndex.Proofs.Threads.Calls
import ImplementorIndex.Proofs.Threads.Plain
import ImplementorIndex.Proofs.Threads.Sequential
import ImplementorIndex.Proofs.Threads.Waiting

/-!
# Calls at the same time are calls one after the other

With plain consumers a run of many threads is compared with the same calls made one after the other,
in the order of their critical sections. At every moment the sequential registry is ahead of the other
one: it has already handed over what is queued and counted what is not counted. What a thread that has
entered the registry will be told is what the sequential call was told. When all calls have returned
nothing is left to catch up with, so the two agree.
-/

namespace ImplementorIndex

theorem Counters.countAll_eq (counters : Counters) (endings : List Ending) :
    counters.countAll endings = { counters with
      delivered := counters.delivered + endings.countP (· = .returned)
      panicked := counters.panicked + endings.countP (¬ · = .returned) } := by
  induction endings generalizing counters with
  | nil => rfl
  | cons ending later ih =>
    rw [Counters.countAll_cons, ih]
    cases ending <;> simp [Counters.count] <;> omega

/-- It does not matter whether the arrival of a payload is counted before or after ends are. -/
theorem Counters.countAll_received (counters : Counters) (endings : List Ending) :
    { counters with registered := counters.registered + 1 }.countAll endings =
      { counters.countAll endings with
        registered := (counters.countAll endings).registered + 1 } := by
  simp only [Counters.countAll_eq]

namespace Threads

variable {ι κ τ : Type}

/-- What the threads were and will be told, against a list of answers. -/
structure Answered [DecidableEq τ] (world : World ι τ) (given : List (τ × Call ι × Reply)) : Prop where
  told : ∀ thread, own thread given =
    own thread (answers world.history) ++ (world.frames thread).filterMap Frame.due?
  asked : ∀ thread, own thread (begun world.history) =
    (own thread given).map Prod.fst ++ (world.frames thread).filterMap Frame.outside?

section Answers

variable [DecidableEq τ] {world next : World ι τ} {thread : τ} {given : List (τ × Call ι × Reply)}

/-- A step of a thread: calls that it begins, answers that come due, and calls that return. -/
theorem answered_of_own (last : Option Ending) {stack : List (Frame ι)}
    (answered : Answered world given) (started : List (Call ι)) (more back : List (Call ι × Reply))
    (frames : next.frames = Function.update (world.notified last) thread stack)
    (begins : begun next.history =
      begun world.history ++ started.map fun call => (thread, call))
    (returns : answers next.history =
      answers world.history ++ back.map fun answer => (thread, answer))
    (told : (world.frames thread).filterMap Frame.due? ++ more =
      back ++ stack.filterMap Frame.due?)
    (asked : (world.frames thread).filterMap Frame.outside? ++ started =
      more.map Prod.fst ++ stack.filterMap Frame.outside?) :
    Answered next (given ++ more.map fun answer => (thread, answer)) := by
  constructor
  · refine calls_of_own (motive := fun other stack => own other
      (given ++ more.map fun answer => (thread, answer)) = own other (answers next.history) ++
        stack.filterMap Frame.due?) last frames ?_ ?_
    · rw [returns, own_append, own_append, own_self, own_self, answered.told thread,
        List.append_assoc, told, List.append_assoc]
    · intro other ne
      rw [returns, own_append, own_append, own_other ne, own_other ne, List.append_nil,
        List.append_nil, filterMap_notified world last other Frame.due?_wake]
      exact answered.told other
  · refine calls_of_own (motive := fun other stack => own other (begun next.history) =
      (own other (given ++ more.map fun answer => (thread, answer))).map Prod.fst ++
        stack.filterMap Frame.outside?) last frames ?_ ?_
    · rw [begins, own_append, own_append, own_self, own_self, answered.asked thread,
        List.map_append, List.append_assoc, asked, List.append_assoc]
    · intro other ne
      rw [begins, own_append, own_append, own_other ne, own_other ne, List.append_nil,
        List.append_nil, filterMap_notified world last other Frame.outside?_wake]
      exact answered.asked other

end Answers

/-- The sequential registry has handed over and counted all that has arrived at the other one. -/
structure Mirrors (behaves : ι → Payload → Ending) (world : World ι τ) (stand : Stand ι κ) : Prop where
  awaiting : ∀ {pending}, world.registry.phase = .awaiting pending →
    stand.registry.phase = .awaiting pending ∧
    stand.registry.counters = world.registry.counters ∧ stand.world = []
  attached : ∀ {delivery}, world.registry.phase = .attached delivery →
    stand.registry.phase = idle delivery.consumer delivery.enqueued ∧
    stand.registry.counters = world.registry.counters.countAll
      ((world.uncounted delivery).map fun sent => behaves delivery.consumer sent.2) ∧
    stand.world = (arrivals world.history).map fun sent => (delivery.consumer, sent.2)

namespace Mirrors

variable {behaves : ι → Payload → Ending} {world next : World ι τ} {stand after : Stand ι κ}

theorem of_awaiting {pending : List Payload} (phase : next.registry.phase = .awaiting pending)
    (same : stand.registry.phase = .awaiting pending)
    (counters : stand.registry.counters = next.registry.counters) (calls : stand.world = []) :
    Mirrors behaves next stand where
  awaiting now := by
    obtain rfl := Phase.awaiting.inj (phase.symm.trans now)
    exact ⟨same, counters, calls⟩
  attached now := by simp [phase] at now

theorem of_attached {delivery : Delivery ι τ} (phase : next.registry.phase = .attached delivery)
    (same : stand.registry.phase = idle delivery.consumer delivery.enqueued)
    (counters : stand.registry.counters = next.registry.counters.countAll
      ((next.uncounted delivery).map fun sent => behaves delivery.consumer sent.2))
    (calls : stand.world =
      (arrivals next.history).map fun sent => (delivery.consumer, sent.2)) :
    Mirrors behaves next stand where
  awaiting now := by simp [phase] at now
  attached now := by
    obtain rfl := Phase.attached.inj (phase.symm.trans now)
    exact ⟨same, counters, calls⟩

theorem of_same (mirrors : Mirrors behaves world stand)
    (registry : next.registry = world.registry)
    (arrived : arrivals next.history = arrivals world.history) : Mirrors behaves next stand where
  awaiting now := by
    rw [registry] at now ⊢
    exact mirrors.awaiting now
  attached now := by
    rw [World.uncounted, arrived, registry]
    exact mirrors.attached (registry ▸ now)

/-- A delivering call counts the end of its last hand-over. -/
theorem counted (mirrors : Mirrors behaves world stand) {delivery later : Delivery ι τ}
    {last : Option Ending} (phase : world.registry.phase = .attached delivery)
    (now : next.registry.phase = .attached later) (consumer : later.consumer = delivery.consumer)
    (enqueued : later.enqueued = delivery.enqueued)
    (completed : later.completed = delivery.completed + Counters.ends last)
    (counters : next.registry.counters = world.registry.counters.settle last)
    (arrived : arrivals next.history = arrivals world.history)
    (ends : ∀ ending, last = some ending →
      ∃ sent, (arrivals world.history)[delivery.completed]? = some sent ∧
        ending = behaves delivery.consumer sent.2) : Mirrors behaves next stand := by
  obtain ⟨same, total, calls⟩ := mirrors.attached phase
  refine of_attached now (by rw [consumer, enqueued, same]) ?_ (by rw [arrived, consumer, calls])
  rw [total, counters, World.uncounted, World.uncounted, arrived, completed, consumer]
  cases last with
  | none => rfl
  | some ending =>
    obtain ⟨sent, first, rfl⟩ := ends ending rfl
    obtain ⟨bound, rfl⟩ := List.getElem?_eq_some_iff.mp first
    rw [List.drop_eq_getElem_cons bound]
    rfl

/-- A payload arrives at an attached registry; the sequential call has handed it over at once. -/
theorem arrived (mirrors : Mirrors behaves world stand) (all : Coherent world)
    {delivery later : Delivery ι τ} {thread : τ} {payload : Payload}
    (phase : world.registry.phase = .attached delivery)
    (now : next.registry.phase = .attached later) (consumer : later.consumer = delivery.consumer)
    (enqueued : later.enqueued = delivery.enqueued + 1)
    (completed : later.completed = delivery.completed)
    (counters : next.registry.counters = { world.registry.counters with
      registered := world.registry.counters.registered + 1 })
    (arrivals_eq : arrivals next.history = arrivals world.history ++ [(thread, payload)])
    (handed_over : after.registry.phase = idle delivery.consumer (delivery.enqueued + 1))
    (total : after.registry.counters = { stand.registry.counters with
      registered := stand.registry.counters.registered + 1 }.count
        (behaves delivery.consumer payload))
    (calls : after.world = stand.world ++ [(delivery.consumer, payload)]) :
    Mirrors behaves next after := by
  obtain ⟨_, counted, made⟩ := mirrors.attached phase
  have size := all.length_popped phase
  have bound := all.handed_isPrefix.length_le
  rw [List.length_map] at bound
  refine of_attached now (by rw [consumer, enqueued, handed_over]) ?_ ?_
  · rw [total, counted, counters, World.uncounted, World.uncounted, arrivals_eq, completed, consumer,
      List.drop_append_of_le_length (by omega), List.map_append, Counters.countAll_append,
      Counters.countAll_received]
    rfl
  · rw [calls, made, arrivals_eq, consumer, List.map_append]
    rfl

end Mirrors

structure Sequenced [DecidableEq ι] [DecidableEq κ] [DecidableEq τ] (behaves : ι → Payload → Ending)
    (place : τ → κ) (label : String) (world : World ι τ) : Prop where
  mirrors : Mirrors behaves world (sequentially behaves place label (entered world.history)).stand
  answered : Answered world (sequentially behaves place label (entered world.history)).answers

section Steps

variable [DecidableEq ι] [DecidableEq κ] [DecidableEq τ] {behaves : ι → Payload → Ending}
  {place : τ → κ} {label : String} {world next : World ι τ} {thread : τ}

theorem sequenced_start (behaves : ι → Payload → Ending) (place : τ → κ) (label : String) :
    Sequenced behaves place label (World.start label) where
  mirrors := Mirrors.of_awaiting rfl rfl rfl rfl
  answered := ⟨fun _ => rfl, fun _ => rfl⟩

/-- Steps outside the critical sections of calls. -/
theorem sequenced_of_same (last : Option Ending) {stack : List (Frame ι)}
    (before : Sequenced behaves place label world) (started : List (Call ι))
    (back : List (Call ι × Reply))
    (mirrors : ∀ {stand : Stand ι κ}, Mirrors behaves world stand → Mirrors behaves next stand)
    (same : entered next.history = entered world.history)
    (frames : next.frames = Function.update (world.notified last) thread stack)
    (begins : begun next.history =
      begun world.history ++ started.map fun call => (thread, call))
    (returns : answers next.history =
      answers world.history ++ back.map fun answer => (thread, answer))
    (told : (world.frames thread).filterMap Frame.due? = back ++ stack.filterMap Frame.due?)
    (asked : (world.frames thread).filterMap Frame.outside? ++ started =
      stack.filterMap Frame.outside?) : Sequenced behaves place label next := by
  constructor
  · rw [same]
    exact mirrors before.mirrors
  · rw [same]
    have answered := answered_of_own last before.answered started [] back frames begins returns
      (by simpa using told) (by simpa using asked)
    simpa using answered

/-- A call that is in the registry goes on, and what it will be told stays. -/
theorem sequenced_of_reply (last : Option Ending) {call : Call ι} {arrival : Nat}
    {stage later : Stage ι} {rest : List (Frame ι)} {reply : Reply}
    (before : Sequenced behaves place label world)
    (mirrors : ∀ {stand : Stand ι κ}, Mirrors behaves world stand → Mirrors behaves next stand)
    (same : entered next.history = entered world.history)
    (begins : begun next.history = begun world.history)
    (returns : answers next.history = answers world.history)
    (top : world.frames thread = ⟨call, arrival, stage⟩ :: rest)
    (frames : next.frames = Function.update (world.notified last) thread
      (⟨call, arrival, later⟩ :: rest))
    (was : stage.reply? = some reply) (still : later.reply? = some reply) :
    Sequenced behaves place label next := by
  have inside : (⟨call, arrival, stage⟩ : Frame ι).outside? = none := Frame.outside?_of_reply was
  have within : (⟨call, arrival, later⟩ : Frame ι).outside? = none := Frame.outside?_of_reply still
  refine sequenced_of_same last before [] [] mirrors same frames (by simpa using begins)
    (by simpa using returns) ?_ ?_
  · simp [top, Frame.due?, was, still]
  · simp [top, inside, within]

/-- The critical section of a call: the sequential call is made, and its answer is what the thread
will be told. -/
theorem sequenced_of_entry {call : Call ι} {arrival number : Nat} {stage : Stage ι}
    {rest : List (Frame ι)} {occurrence : Occurrence ι τ} {stand : Stand ι κ} {reply : Reply}
    (before : Sequenced behaves place label world) (alone : (world.frames thread).length ≤ 1)
    (top : world.frames thread = ⟨call, arrival, .entering⟩ :: rest)
    (frames : next.frames = Function.update world.frames thread (⟨call, number, stage⟩ :: rest))
    (history : next.history = world.history ++ [occurrence])
    (enters : occurrence.entered? = some (thread, call))
    (performed : perform behaves (place thread) call
      (sequentially behaves place label (entered world.history)).stand = (stand, reply))
    (due : stage.reply? = some reply) (mirrors : Mirrors behaves next stand) :
    Sequenced behaves place label next := by
  obtain rfl : rest = [] := by
    rw [top] at alone
    exact List.length_eq_zero_iff.mp (Nat.le_zero.mp (Nat.le_of_succ_le_succ alone))
  have play : sequentially behaves place label (entered next.history) =
      ⟨stand, (sequentially behaves place label (entered world.history)).answers ++
        [(thread, call, reply)]⟩ := by
    rw [history, entered_concat, enters]
    exact (sequentially_concat _ _ _ _ _).trans (by rw [Play.add, performed])
  have outside : (⟨call, number, stage⟩ : Frame ι).outside? = none := Frame.outside?_of_reply due
  have owed : (⟨call, number, stage⟩ : Frame ι).due? = some (call, reply) := by
    simp [Frame.due?, due]
  constructor
  · rw [play]
    exact mirrors
  · rw [play]
    refine answered_of_own none before.answered [] [(call, reply)] [] frames ?_ ?_ ?_ ?_
    · rw [history]
      cases occurrence <;> simp_all
    · rw [history]
      cases occurrence <;> simp_all
    · rw [top, List.filterMap_cons, List.filterMap_cons, owed]
      rfl
    · rw [top, List.filterMap_cons, List.filterMap_cons, outside]
      rfl

theorem sequenced_step (plain : Plain behaves world) (before : Sequenced behaves place label world)
    (step : PlainStep behaves world next thread) : Sequenced behaves place label next := by
  have mirrors := before.mirrors
  have alone := plain.alone thread
  have ledger := plain.coherent.ledger
  obtain ⟨transition, begins, _⟩ := step
  cases transition with
  | called call free =>
    refine sequenced_of_same none before [call] [] (fun mirrors => mirrors.of_same rfl (by simp))
      (by simp) rfl (by simp) (by simp) ?_ ?_
    · simp [begins rfl, Frame.due?, Stage.reply?]
    · simp [begins rfl, Frame.outside?]
  | buffered top phase =>
    obtain ⟨same, counters, calls⟩ := mirrors.awaiting phase
    obtain ⟨log, performed⟩ := perform_register_awaiting behaves (place thread) same
    refine sequenced_of_entry before alone top rfl rfl rfl performed rfl ?_
    exact Mirrors.of_awaiting rfl rfl (by simp [counters]) calls
  | claimed top phase idle =>
    obtain ⟨same, _, _⟩ := mirrors.attached phase
    obtain ⟨log, performed⟩ := perform_register_idle behaves (place thread) same
    refine sequenced_of_entry before alone top rfl rfl rfl performed rfl ?_
    exact mirrors.arrived plain.coherent phase rfl rfl rfl rfl rfl (by simp; rfl) rfl rfl rfl
  | joined top phase busy outcome =>
    obtain ⟨same, _, _⟩ := mirrors.attached phase
    obtain ⟨log, performed⟩ := perform_register_idle behaves (place thread) same
    refine sequenced_of_entry before alone top rfl rfl rfl performed ?_ ?_
    · -- A thread that is in no other call does not deliver, so it is not told that it is queued.
      rcases outcome with ⟨own, _, rfl⟩ | ⟨_, _, ⟨_, rfl⟩ | ⟨_, rfl⟩⟩
      · have shape := top ▸ plain.coherent.shaped thread
        rcases shape.of_passive rfl with ⟨not, _⟩ | ⟨_, below, rfl, _⟩
        · exact absurd (by simp [Registry.deliverer?, phase, busy, own]) not
        · simp [top] at alone
      · rfl
      · rfl
    · exact mirrors.arrived plain.coherent phase rfl rfl rfl rfl rfl (by simp; rfl) rfl rfl rfl
  | installed top phase =>
    obtain ⟨same, counters, calls⟩ := mirrors.awaiting phase
    obtain ⟨log, performed⟩ := perform_install_awaiting behaves (place thread) same
    refine sequenced_of_entry before alone top rfl rfl rfl performed rfl ?_
    have pending := (ledger.pending phase).2
    refine Mirrors.of_attached rfl rfl ?_ ?_
    · simp [World.uncounted, counters, ← pending, Function.comp_def]
    · simp [calls, ← pending, Function.comp_def]
  | kept top phase same =>
    subst same
    obtain ⟨stays, counted, calls⟩ := mirrors.attached phase
    obtain ⟨log, performed⟩ := perform_install_same behaves (place thread) stays
    refine sequenced_of_entry before alone top rfl rfl rfl performed rfl ?_
    refine Mirrors.of_attached phase stays ?_ (by simpa using calls)
    simp [counted, World.uncounted]
  | rejected top phase other =>
    obtain ⟨stays, counted, calls⟩ := mirrors.attached phase
    obtain ⟨log, performed⟩ := perform_install_other behaves (place thread) stays other
    refine sequenced_of_entry before alone top rfl rfl rfl performed rfl ?_
    refine Mirrors.of_attached phase stays ?_ (by simpa using calls)
    simp [counted, World.uncounted, Counters.countAll_eq]
  | looked top =>
    refine sequenced_of_reply none before (fun mirrors => mirrors.of_same rfl rfl) rfl rfl rfl top rfl
      rfl ?_
    unfold waitStage
    split <;> rfl
  | handedOver top phase queue =>
    refine sequenced_of_reply _ before ?_ (by simp) (by simp) (by simp) top rfl rfl rfl
    intro stand mirrors
    refine mirrors.counted phase rfl rfl rfl rfl rfl (by simp) ?_
    rintro ending rfl
    exact plain.ending_eq phase top
  | drained top phase empty =>
    refine sequenced_of_reply _ before ?_ rfl rfl rfl top rfl rfl rfl
    intro stand mirrors
    refine mirrors.counted phase rfl rfl rfl rfl rfl rfl ?_
    rintro ending rfl
    exact plain.ending_eq phase top
  | detached top phase =>
    have named := ((top ▸ plain.coherent.shaped thread).of_drains rfl).1
    simp [Registry.deliverer?, phase] at named
  | ended ending top =>
    exact sequenced_of_reply none before (fun mirrors => mirrors.of_same rfl (by simp)) (by simp)
      (by simp) (by simp) top rfl rfl rfl
  | @returned call _ _ reply top =>
    refine sequenced_of_same none before [] [(call, reply)]
      (fun mirrors => mirrors.of_same rfl (by simp)) (by simp) rfl (by simp) (by simp) ?_ ?_
    · rw [top]
      rfl
    · rw [top]
      exact List.append_nil _

theorem sequenced_of_runPlain (place : τ → κ) {schedule : List (τ × Move ι)}
    (ran : (World.start label).runPlain behaves schedule = some world) :
    Plain behaves world ∧ Sequenced behaves place label world := by
  refine runPlain_induction
    (motive := fun world => Plain behaves world ∧ Sequenced behaves place label world) ran ?_ ?_
  · exact ⟨plain_start behaves label, sequenced_start behaves place label⟩
  · intro world next thread h step
    exact ⟨plain_step h.1 step, sequenced_step h.1 h.2 step⟩

end Steps

section Quiet

variable {behaves : ι → Payload → Ending} {world : World ι τ} {stand : Stand ι κ}

/-- When no call is under way, all that arrived has been handed over and counted. -/
theorem Coherent.quiet (all : Coherent world) (quiet : ∀ thread, world.frames thread = [])
    {delivery : Delivery ι τ} (phase : world.registry.phase = .attached delivery) :
    world.uncounted delivery = [] ∧
      handed world.history = (arrivals world.history).map Prod.snd := by
  have idle := all.idle_of_quiet quiet
  have none := all.inflight_of_idle phase idle
  constructor
  · rw [← List.map_eq_nil_iff, all.map_uncounted phase, all.popped_of_idle phase idle, none]
    rfl
  · have conserved := all.ledger.conserved
    simp only [Registry.queue, phase, none, List.append_nil] at conserved
    exact conserved.symm

theorem Mirrors.snapshot_eq (mirrors : Mirrors behaves world stand) (all : Coherent world)
    (quiet : ∀ thread, world.frames thread = []) :
    world.registry.snapshot = stand.registry.snapshot := by
  cases phase : world.registry.phase with
  | awaiting pending =>
    obtain ⟨same, counters, _⟩ := mirrors.awaiting phase
    simp [Registry.snapshot, Registry.isAttached, Registry.pending, phase, same, counters]
  | attached delivery =>
    obtain ⟨same, counters, _⟩ := mirrors.attached phase
    rw [(all.quiet quiet phase).1, List.map_nil, Counters.countAll_nil] at counters
    simp [Registry.snapshot, Registry.isAttached, Registry.pending, phase, same, counters, idle]

theorem Mirrors.invocations_eq (mirrors : Mirrors behaves world stand) (all : Coherent world)
    (attended : Attended world) (quiet : ∀ thread, world.frames thread = []) :
    invocations world.history = stand.world := by
  cases phase : world.registry.phase with
  | awaiting pending =>
    rw [(mirrors.awaiting phase).2.2, ← List.map_eq_nil_iff, map_snd_invocations]
    exact (all.ledger.pending phase).1
  | attached delivery =>
    rw [(mirrors.attached phase).2.2, attended.invoked phase, (all.quiet quiet phase).2, List.map_map]
    rfl

theorem Answered.quiet [DecidableEq τ] {given : List (τ × Call ι × Reply)}
    (answered : Answered world given) (quiet : ∀ thread, world.frames thread = []) (thread : τ) :
    own thread (begun world.history) = (own thread given).map Prod.fst ∧
      own thread (answers world.history) = own thread given := by
  have told := answered.told thread
  have asked := answered.asked thread
  rw [quiet thread, List.filterMap_nil, List.append_nil] at told asked
  exact ⟨asked, told.symm⟩

end Quiet

section Results

variable [DecidableEq ι] [DecidableEq κ] [DecidableEq τ] {behaves : ι → Payload → Ending}
  {label : String} {schedule : List (τ × Move ι)} {world : World ι τ}

/-- A run of many threads with plain consumers, in which all calls have returned, against the same
calls made one after the other in the order of their critical sections, on whatever threads. Every
thread was told the same for each of its calls, the consumers were called with the same payloads in
the same order, and the registries look the same from outside. -/
theorem concurrent_eq_sequential (place : τ → κ)
    (ran : (World.start label).runPlain behaves schedule = some world)
    (quiet : ∀ thread, world.frames thread = []) :
    (∀ thread,
      own thread (begun world.history) =
        (own thread (sequentially behaves place label (entered world.history)).answers).map Prod.fst ∧
      own thread (answers world.history) =
        own thread (sequentially behaves place label (entered world.history)).answers) ∧
    invocations world.history =
      (sequentially behaves place label (entered world.history)).stand.world ∧
    world.registry.snapshot =
      (sequentially behaves place label (entered world.history)).stand.registry.snapshot := by
  obtain ⟨plain, sequenced⟩ := sequenced_of_runPlain place ran
  refine ⟨sequenced.answered.quiet quiet, ?_, ?_⟩
  · exact sequenced.mirrors.invocations_eq plain.coherent plain.attended quiet
  · exact sequenced.mirrors.snapshot_eq plain.coherent quiet

def breaksOffFor (key : TraitKey) : Nat → Payload → Ending :=
  fun _ payload => if payload.traitKey = key then .panicked .wordless else .returned

/-- A thread buffers a payload, another one installs a consumer, and while that one is called a third
thread registers and the first offers another consumer, and later the same. -/
def threeThreads (first second : Payload) : List (Nat × Move Nat) :=
  [(1, .call (.register first)), (1, .proceed), (1, .proceed),
   (0, .call (.install 7)), (0, .proceed), (0, .proceed),
   (2, .call (.register second)), (2, .proceed),
   (1, .call (.install 8)), (1, .proceed), (1, .proceed),
   (0, .finish .returned), (0, .proceed), (0, .finish (.panicked .wordless)), (0, .proceed),
   (1, .call (.install 7)), (1, .proceed), (2, .proceed), (2, .proceed), (1, .proceed),
   (0, .proceed)]

theorem concurrent_eq_sequential_threeThreads : ∃ world : World Nat Nat,
    (World.start "implementors").runPlain (breaksOffFor ⟨"Drop"⟩)
      (threeThreads ⟨⟨"Clone"⟩, .empty⟩ ⟨⟨"Drop"⟩, .empty⟩) = some world ∧
    (∀ thread, world.frames thread = []) ∧
    entered world.history = [(1, .register ⟨⟨"Clone"⟩, .empty⟩), (0, .install 7),
      (2, .register ⟨⟨"Drop"⟩, .empty⟩), (1, .install 8), (1, .install 7)] ∧
    own 1 (sequentially (breaksOffFor ⟨"Drop"⟩) (fun _ => ()) "implementors"
      (entered world.history)).answers =
      [(.register ⟨⟨"Clone"⟩, .empty⟩, .registration (.buffered 0)),
       (.install 8, .installation .rejected), (.install 7, .installation .kept)] ∧
    (sequentially (breaksOffFor ⟨"Drop"⟩) (fun _ => ()) "implementors"
      (entered world.history)).stand.registry.snapshot = ⟨true, 0, ⟨2, 1, 1, 1, 1⟩⟩ := by
  have played : ∃ world : World Nat Nat,
      (World.start "implementors").runPlain (breaksOffFor ⟨"Drop"⟩)
        (threeThreads ⟨⟨"Clone"⟩, .empty⟩ ⟨⟨"Drop"⟩, .empty⟩) = some world ∧
      (∀ thread, world.frames thread = []) ∧
      entered world.history = [(1, .register ⟨⟨"Clone"⟩, .empty⟩), (0, .install 7),
        (2, .register ⟨⟨"Drop"⟩, .empty⟩), (1, .install 8), (1, .install 7)] ∧
      own 1 (answers world.history) =
        [(.register ⟨⟨"Clone"⟩, .empty⟩, .registration (.buffered 0)),
         (.install 8, .installation .rejected), (.install 7, .installation .kept)] ∧
      world.registry.snapshot = ⟨true, 0, ⟨2, 1, 1, 1, 1⟩⟩ := by
    refine ⟨_, rfl, ?_, rfl, rfl, rfl⟩
    intro thread
    match thread with
    | 0 => rfl
    | 1 => rfl
    | 2 => rfl
    | _ + 3 => rfl
  obtain ⟨world, ran, quiet, order, told, seen⟩ := played
  obtain ⟨answered, _, outside⟩ := concurrent_eq_sequential (fun _ => ()) ran quiet
  exact ⟨world, ran, quiet, order, (answered 1).2.symm.trans told, outside.symm.trans seen⟩

end Results

end Threads

end ImplementorIndex
