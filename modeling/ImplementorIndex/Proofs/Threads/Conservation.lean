import ImplementorIndex.Proofs.Threads.Drainer
import ImplementorIndex.Proofs.Threads.Installation

/-!
# The totals balance

The totals of a registry are kept in three different critical sections: a payload is counted when it
arrives, the end of its hand-over one critical section later, and what was buffered enters the queue
all at once. The main statement of this module says that the totals agree with each other and with the
history all the same, in every world that a schedule reaches.
-/

namespace ImplementorIndex

variable {ι τ : Type}

def Registry.inflight (registry : Registry ι τ) : List Payload :=
  match registry.phase with
  | .awaiting _ => []
  | .attached delivery => delivery.inflight

theorem Registry.length_queue (registry : Registry ι τ) :
    registry.queue.length = registry.pending.length + registry.inflight.length := by
  unfold queue pending inflight
  cases registry.phase with
  | awaiting pending => rfl
  | attached delivery => exact (Nat.zero_add _).symm

namespace Counters

def figures (counters : Counters) : List Nat :=
  [counters.registered, counters.buffered, counters.delivered, counters.panicked, counters.rejected]

structure Grown (counters later : Counters) : Prop where
  registered : counters.registered ≤ later.registered
  buffered : counters.buffered ≤ later.buffered
  delivered : counters.delivered ≤ later.delivered
  panicked : counters.panicked ≤ later.panicked
  rejected : counters.rejected ≤ later.rejected

variable {counters later last : Counters}

theorem Grown.refl (counters : Counters) : counters.Grown counters := by
  constructor <;> exact Nat.le_refl _

theorem Grown.trans (h : counters.Grown later) (more : later.Grown last) : counters.Grown last where
  registered := Nat.le_trans h.registered more.registered
  buffered := Nat.le_trans h.buffered more.buffered
  delivered := Nat.le_trans h.delivered more.delivered
  panicked := Nat.le_trans h.panicked more.panicked
  rejected := Nat.le_trans h.rejected more.rejected

theorem grown_settle (counters : Counters) (last : Option Ending) :
    counters.Grown (counters.settle last) := by
  rcases last with _ | _ | _ <;> constructor <;> simp [settle, count]

@[simp] theorem registered_settle (counters : Counters) (last : Option Ending) :
    (counters.settle last).registered = counters.registered := by
  rcases last with _ | _ | _ <;> rfl

@[simp] theorem rejected_settle (counters : Counters) (last : Option Ending) :
    (counters.settle last).rejected = counters.rejected := by
  rcases last with _ | _ | _ <;> rfl

end Counters

namespace Threads

section Steps

variable [DecidableEq τ] {world next : World ι τ} {thread : τ}

theorem grown_step (h : Transition world thread next) :
    world.registry.counters.Grown next.registry.counters := by
  cases h with
  | called | installed | kept | looked | detached | ended | returned => exact .refl _
  | buffered | claimed | joined | rejected => constructor <;> simp
  | handedOver | drained => exact Counters.grown_settle _ _

/-- Arrivals and rejections are counted in the critical section in which they happen. -/
structure Tallied (world : World ι τ) : Prop where
  registered : world.registry.counters.registered = (arrivals world.history).length
  rejected : world.registry.counters.rejected =
    (offers world.history).countP fun offer => offer.2.2 = .rejected

theorem tallied_step (tallied : Tallied world) (h : Transition world thread next) :
    Tallied next := by
  obtain ⟨registered, rejected⟩ := tallied
  cases h with
  | looked | detached => exact ⟨registered, rejected⟩
  | drained => exact ⟨by simp [registered], by simp [rejected]⟩
  | called | buffered | claimed | joined | installed | kept | rejected | handedOver | ended
  | returned => exact ⟨by simp [registered], by simp [rejected]⟩

variable [DecidableEq ι] {schedule : List (τ × Move ι)}

theorem grown_run (ran : world.run schedule = some next) :
    world.registry.counters.Grown next.registry.counters :=
  run_induction (motive := fun next => world.registry.counters.Grown next.registry.counters) ran
    (.refl _) fun grown step => grown.trans (grown_step step)

/-- Once a consumer is attached, nothing is buffered any more. -/
theorem buffered_run (attached : world.registry.isAttached = true)
    (ran : world.run schedule = some next) :
    next.registry.counters.buffered = world.registry.counters.buffered := by
  have both : next.registry.isAttached = true ∧
      next.registry.counters.buffered = world.registry.counters.buffered := by
    apply run_induction (motive := fun next => next.registry.isAttached = true ∧
      next.registry.counters.buffered = world.registry.counters.buffered) ran ⟨attached, rfl⟩
    intro middle next thread h step
    exact ⟨(later_of_transition step).attached h.1, (buffered_of_attached step h.1).trans h.2⟩
  exact both.2

end Steps

section Coherent

variable {world : World ι τ}

/-- What was handed over is what was counted, and one more while a payload is out of the queue. -/
theorem Coherent.length_handed (h : Coherent world) :
    (world.Holds → (handed world.history).length = world.registry.counters.settled + 1) ∧
    (¬ world.Holds → (handed world.history).length = world.registry.counters.settled) := by
  cases phase : world.registry.phase with
  | awaiting pending =>
    have idle : world.registry.deliverer? = none := by simp [Registry.deliverer?, phase]
    refine ⟨?_, fun _ => (h.ledger.quiet idle).1⟩
    rintro ⟨thread, frame, mem, holding⟩
    have named := h.shaped.deliverer_of_drains mem (Stage.drains_of_holds holding)
    simp [idle] at named
  | attached delivery =>
    have size := h.length_popped phase
    have few := h.length_popped_le phase
    have completed := (h.ledger.attached phase).2.1
    have held := h.holds_iff phase
    constructor
    · intro holding
      have out := List.length_pos_iff.mpr (held.mp holding)
      omega
    · intro free
      have out : world.popped delivery = [] := by
        by_contra popped
        exact free (held.mpr popped)
      rw [out, List.length_nil] at size
      omega

theorem Coherent.length_arrivals (h : Coherent world) :
    (arrivals world.history).length =
      (handed world.history).length + world.registry.pending.length +
        world.registry.inflight.length := by
  have size := congrArg List.length h.ledger.conserved
  rw [List.length_map, List.length_append, world.registry.length_queue] at size
  omega

theorem length_verdicts (history : List (Occurrence ι τ)) :
    (verdicts history).length = (arrivals history).length + (offers history).length := by
  induction history with
  | nil => rfl
  | cons occurrence later ih =>
    cases occurrence with
    | received =>
      change (verdicts later).length + 1 = (arrivals later).length + 1 + (offers later).length
      omega
    | offered =>
      change (verdicts later).length + 1 = (arrivals later).length + ((offers later).length + 1)
      omega
    | _ => exact ih

theorem mem_offers {history : List (Occurrence ι τ)} {thread : τ} {consumer : ι} {outcome : Offer} :
    (thread, consumer, outcome) ∈ offers history ↔ .offered thread consumer outcome ∈ history := by
  rw [offers, List.mem_filterMap]
  constructor
  · rintro ⟨occurrence, mem, seen⟩
    cases occurrence with
    | offered =>
      cases seen
      exact mem
    | _ => cases seen
  · intro mem
    exact ⟨_, mem, rfl⟩

/-- What was buffered is what the installation flushed: it arrived before the cut. -/
theorem Coherent.buffered_eq (h : Coherent world) {installer : τ} {consumer : ι} {flushed : Nat}
    (offered : (installer, consumer, .installed flushed) ∈ offers world.history) :
    world.registry.counters.buffered = flushed ∧ flushed ≤ (arrivals world.history).length := by
  obtain ⟨before, after, split⟩ := List.append_of_mem (mem_offers.mp offered)
  obtain ⟨_, count, size⟩ := h.promises.cut split
  refine ⟨count.symm, ?_⟩
  rw [split, arrivals_append, List.length_append, size]
  exact Nat.le_add_right _ _

end Coherent

section Results

variable [DecidableEq ι] [DecidableEq τ] {world : World ι τ}

theorem tallied (reached : Reachable world) : Tallied world :=
  reached.induction (fun _ => ⟨rfl, rfl⟩) tallied_step

/-- The installation that attached the consumer, with what it flushed. -/
theorem exists_installed (reached : Reachable world) {delivery : Delivery ι τ}
    (phase : world.registry.phase = .attached delivery) :
    ∃ installer flushed,
      (installer, delivery.consumer, .installed flushed) ∈ offers world.history := by
  have ruled := ruled reached
  have attached : world.registry.consumer? = some delivery.consumer := by
    rw [Registry.consumer?, phase]
  rw [Ruled, attached] at ruled
  obtain ⟨installer, flushed, later, first, _⟩ := ruled
  exact ⟨installer, flushed, first ▸ List.mem_cons_self⟩

theorem buffered_le_registered (reached : Reachable world) :
    world.registry.counters.buffered ≤ world.registry.counters.registered := by
  have all := coherent reached
  rw [(tallied reached).registered]
  cases phase : world.registry.phase with
  | awaiting pending => exact Nat.le_of_eq (all.ledger.awaiting phase).2
  | attached delivery =>
    obtain ⟨installer, flushed, offered⟩ := exists_installed reached phase
    obtain ⟨count, bound⟩ := all.buffered_eq offered
    omega

/-- Every total is at most the number of calls that were begun. -/
theorem figures_le (reached : Reachable world) :
    ∀ figure ∈ world.registry.counters.figures, figure ≤ (begun world.history).length := by
  have all := coherent reached
  obtain ⟨registered, rejected⟩ := tallied reached
  have calls := (accounted reached).length_verdicts_le
  rw [length_verdicts] at calls
  have rejections : world.registry.counters.rejected ≤ (offers world.history).length := by
    rw [rejected]
    exact List.countP_le_length
  have buffered := buffered_le_registered reached
  have bounds := all.ledger.bounds all.shaped
  have gone := all.handed_isPrefix.length_le
  rw [List.length_map] at gone
  simp only [Counters.settled] at bounds
  simp only [Counters.figures, List.forall_mem_cons, List.not_mem_nil, false_implies, implies_true,
    and_true]
  omega

theorem figures_of_attached (reached : Reachable world) {delivery : Delivery ι τ}
    (phase : world.registry.phase = .attached delivery) :
    world.registry.counters.registered = delivery.enqueued ∧
      delivery.completed = world.registry.counters.delivered + world.registry.counters.panicked := by
  obtain ⟨enqueued, completed, _⟩ := (coherent reached).ledger.attached phase
  rw [(tallied reached).registered, enqueued]
  exact ⟨rfl, completed⟩

/-- The counts of an attached registry go with the totals, which never decrease. -/
theorem attached_run (reached : Reachable world) {delivery : Delivery ι τ} {next : World ι τ}
    {schedule : List (τ × Move ι)} (phase : world.registry.phase = .attached delivery)
    (ran : world.run schedule = some next) :
    ∃ later, next.registry.phase = .attached later ∧ delivery.enqueued ≤ later.enqueued ∧
      delivery.completed ≤ later.completed := by
  have attached : world.registry.consumer? = some delivery.consumer := by
    rw [Registry.consumer?, phase]
  obtain ⟨later, stays, _⟩ := Registry.consumer?_eq_some_iff.mp (consumer?_run attached ran)
  have grown := grown_run ran
  have before := figures_of_attached reached phase
  have after := figures_of_attached (reached.run ran) stays
  have registered := grown.registered
  have delivered := grown.delivered
  have panicked := grown.panicked
  exact ⟨later, stays, by omega, by omega⟩

/-- The registry at rest: everything that came was handed over and counted. -/
theorem counted_of_quiet (reached : Reachable world) {delivery : Delivery ι τ}
    (phase : world.registry.phase = .attached delivery)
    (quiet : ∀ thread, world.frames thread = []) : delivery.enqueued = delivery.completed := by
  have all := coherent reached
  have idle := all.idle_of_quiet quiet
  have sum := all.enqueued_eq phase
  rw [all.popped_of_idle phase idle, all.inflight_of_idle phase idle] at sum
  simpa using sum

/-- The totals of a registry in every world. What arrived was counted as delivered or broken off, or
is pending, in flight, or just out of the queue. The buffered payloads are the pending ones, and once
a consumer is attached those that its installation flushed, for good. Rejections are counted as
installations are told of them. An attached registry has put into the queue all that arrived, has
completed what it counted, and at rest has completed everything. No total ever decreases, and none
exceeds the number of calls begun, so that words of 64 bits hold them for fewer calls than that. -/
theorem counters_conserved (reached : Reachable world) :
    (world.Holds → world.registry.counters.registered =
      world.registry.counters.delivered + world.registry.counters.panicked +
        world.registry.pending.length + world.registry.inflight.length + 1) ∧
    (¬ world.Holds → world.registry.counters.registered =
      world.registry.counters.delivered + world.registry.counters.panicked +
        world.registry.pending.length + world.registry.inflight.length) ∧
    (∀ pending, world.registry.phase = .awaiting pending →
      world.registry.counters.buffered = pending.length) ∧
    (∀ delivery, world.registry.phase = .attached delivery →
      (∃ installer flushed,
        (installer, delivery.consumer, .installed flushed) ∈ offers world.history) ∧
      (∀ installer consumer flushed,
        (installer, consumer, .installed flushed) ∈ offers world.history ∨
          (installer, consumer, .installed flushed) ∈ installations world.history →
        world.registry.counters.buffered = flushed) ∧
      (∀ schedule next, world.run schedule = some next →
        next.registry.counters.buffered = world.registry.counters.buffered ∧
        ∃ later, next.registry.phase = .attached later ∧
          delivery.enqueued ≤ later.enqueued ∧ delivery.completed ≤ later.completed) ∧
      world.registry.counters.registered = delivery.enqueued ∧
      delivery.completed = world.registry.counters.delivered + world.registry.counters.panicked ∧
      ((∀ thread, world.frames thread = []) →
        world.registry.counters.registered = delivery.enqueued ∧
        delivery.enqueued = delivery.completed)) ∧
    (world.registry.counters.rejected =
      (offers world.history).countP fun offer => offer.2.2 = .rejected) ∧
    (∀ thread, (own thread (offers world.history)).countP (fun offer => offer.2 = .rejected) =
      (own thread (installations world.history)).countP (fun answer => answer.2 = .rejected) +
        ((world.frames thread).filterMap Frame.installation?).countP
          (fun due => due.2 = .rejected)) ∧
    ((∀ thread, world.frames thread = []) → world.registry.counters.rejected =
      (installations world.history).countP fun answer => answer.2.2 = .rejected) ∧
    (∀ schedule next, world.run schedule = some next →
      world.registry.counters.Grown next.registry.counters) ∧
    (∀ figure ∈ world.registry.counters.figures, figure ≤ (begun world.history).length) := by
  have all := coherent reached
  obtain ⟨registered, rejected⟩ := tallied reached
  have booked := accounted reached
  have size := all.length_arrivals
  refine ⟨?_, ?_, ?_, ?_, rejected, ?_, ?_, fun _ _ ran => grown_run ran, figures_le reached⟩
  · intro holding
    have gone := all.length_handed.1 holding
    rw [Counters.settled] at gone
    omega
  · intro free
    have gone := all.length_handed.2 free
    rw [Counters.settled] at gone
    omega
  · intro pending phase
    rw [(all.ledger.awaiting phase).2, ← (all.ledger.pending phase).2, List.length_map]
  · intro delivery phase
    obtain ⟨enqueued, completed⟩ := figures_of_attached reached phase
    refine ⟨exists_installed reached phase, ?_, ?_, enqueued, completed, ?_⟩
    · rintro installer consumer flushed (offered | told)
      · exact (all.buffered_eq offered).1
      · exact (all.buffered_eq (booked.installations_subperm.subset told)).1
    · intro schedule next ran
      have attached : world.registry.isAttached = true := by rw [Registry.isAttached, phase]
      obtain ⟨later, stays, more⟩ := attached_run reached phase ran
      exact ⟨buffered_run attached ran, later, stays, more⟩
    · intro quiet
      exact ⟨enqueued, counted_of_quiet reached phase quiet⟩
  · intro thread
    rw [(booked.installations thread).countP_eq, List.countP_append]
  · intro quiet
    have told : (offers world.history).Perm (installations world.history) := by
      apply perm_of_own
      intro thread
      have perm := booked.installations thread
      rwa [quiet thread, List.filterMap_nil, List.append_nil] at perm
    rw [rejected, told.countP_eq]

/-- A consumer is called for what was buffered, registers a payload and offers another consumer,
and breaks off. While it is called again, a second thread registers. -/
def mixedTraffic (first second third : Payload) : List (Nat × Move Nat) :=
  [(1, .call (.register first)), (1, .proceed), (1, .proceed),
   (0, .call (.install 7)), (0, .proceed), (0, .proceed),
   (0, .call (.register second)), (0, .proceed), (0, .proceed),
   (0, .call (.install 8)), (0, .proceed), (0, .proceed),
   (0, .finish (.panicked .wordless)), (0, .proceed),
   (2, .call (.register third)), (2, .proceed)]

theorem counters_conserved_mixedTraffic : ∃ (world : World Nat Nat) (delivery : Delivery Nat Nat),
    (World.start "implementors").run (mixedTraffic ⟨⟨"Clone"⟩, .empty⟩ ⟨⟨"Drop"⟩, .empty⟩
      ⟨⟨"Copy"⟩, .empty⟩) = some world ∧
    world.registry.phase = .attached delivery ∧ world.Holds ∧
    world.registry.counters = ⟨3, 1, 0, 1, 1⟩ ∧ delivery.inflight = [⟨⟨"Copy"⟩, .empty⟩] ∧
    3 = 0 + 1 + world.registry.pending.length + world.registry.inflight.length + 1 ∧
    delivery.enqueued = 3 ∧ delivery.completed = 1 ∧
    ((offers world.history).countP fun offer => offer.2.2 = .rejected) = 1 := by
  have busy : ∃ (world : World Nat Nat) (delivery : Delivery Nat Nat),
      (World.start "implementors").run (mixedTraffic ⟨⟨"Clone"⟩, .empty⟩ ⟨⟨"Drop"⟩, .empty⟩
        ⟨⟨"Copy"⟩, .empty⟩) = some world ∧
      world.registry.phase = .attached delivery ∧ world.Holds ∧
      world.registry.counters = ⟨3, 1, 0, 1, 1⟩ ∧ delivery.inflight = [⟨⟨"Copy"⟩, .empty⟩] :=
    ⟨_, _, rfl, rfl, ⟨0, _, List.mem_cons_self, rfl⟩, rfl, rfl⟩
  obtain ⟨world, delivery, ran, phase, held, counters, queue⟩ := busy
  obtain ⟨balance, _, _, attached, rejected, _⟩ := counters_conserved ⟨_, _, ran⟩
  obtain ⟨_, _, _, enqueued, completed, _⟩ := attached delivery phase
  have sum := balance held
  rw [counters] at sum rejected enqueued completed
  exact ⟨world, delivery, ran, phase, held, counters, queue, sum, enqueued.symm, completed,
    rejected.symm⟩

end Results

end Threads

end ImplementorIndex
