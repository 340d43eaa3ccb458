import ImplementorIndex.Proofs.Threads.Promises

/-!
# One drainer at a time

A call that finds the queue idle, or that installs the consumer, takes the delivery upon itself and
gives it back when the queue is empty. The main statement of this module describes every world with a
consumer: who is named as the deliverer, that the consumer is called at one place only, that an idle
queue is empty, and how the numbers of payloads put into the queue, waiting in it, taken out of it and
counted belong together.
-/

namespace ImplementorIndex.Threads

variable {ι τ : Type}

namespace Stage

def drainReply? : Stage ι → Option Reply
  | pumping reply _ _ => some reply
  | accepting reply _ _ _ => some reply
  | _ => none

/-- A payload was taken out of the queue, and the end of its hand-over has not been counted. -/
def holds : Stage ι → Bool
  | pumping _ _ (some _) => true
  | accepting _ _ _ _ => true
  | _ => false

theorem drains_of_drainReply? {stage : Stage ι} {reply : Reply}
    (h : stage.drainReply? = some reply) : stage.drains = true := by
  cases stage <;> simp_all [drainReply?, drains]

theorem drains_of_holds {stage : Stage ι} (h : stage.holds = true) : stage.drains = true := by
  cases stage <;> simp_all [holds, drains]

end Stage

/-- A registration that found the queue idle, or an installation that attached its consumer, and
that has not come out of the delivery. -/
def Frame.InPump (frame : Frame ι) : Prop :=
  (∃ payload, frame.call = .register payload ∧
    frame.stage.drainReply? = some (.registration .delivered)) ∨
  (∃ consumer flushed, frame.call = .install consumer ∧
    frame.stage.drainReply? = some (.installation (.installed flushed)))

theorem Frame.InPump.drains {frame : Frame ι} (h : frame.InPump) : frame.stage.drains = true := by
  rcases h with ⟨_, _, reply⟩ | ⟨_, _, _, reply⟩
  · exact Stage.drains_of_drainReply? reply
  · exact Stage.drains_of_drainReply? reply

namespace World

def InPump (world : World ι τ) (thread : τ) : Prop :=
  ∃ frame ∈ world.frames thread, frame.InPump

def Accepts (world : World ι τ) (thread : τ) (depth : Nat) : Prop :=
  ∃ frame, (world.frames thread)[depth]? = some frame ∧ frame.stage.isAccepting = true

def Holds (world : World ι τ) : Prop :=
  ∃ thread, ∃ frame ∈ world.frames thread, frame.stage.holds = true

def popped (world : World ι τ) (delivery : Delivery ι τ) : List Payload :=
  (handed world.history).drop delivery.completed

end World

/-- A delivering call lies at the bottom of its thread. -/
theorem Shape.bottom_of_drains {delivers : Prop} {stack : List (Frame ι)} {frame : Frame ι}
    {depth : Nat} (h : Shape delivers stack) (found : stack[depth]? = some frame)
    (active : frame.stage.drains = true) : delivers ∧ depth + 1 = stack.length := by
  cases h with
  | idle not => simp at found
  | calling not passive =>
    rcases depth with _ | depth
    · simp only [List.getElem?_cons_zero, Option.some.injEq] at found
      subst found
      simp [passive] at active
    · simp at found
  | delivering yes _ =>
    rcases depth with _ | depth
    · exact ⟨yes, rfl⟩
    · simp at found
  | nested yes passive _ =>
    rcases depth with _ | _ | depth
    · simp only [List.getElem?_cons_zero, Option.some.injEq] at found
      subst found
      simp [passive] at active
    · exact ⟨yes, rfl⟩
    · simp at found

section Coherent

variable {world : World ι τ}

theorem WellShaped.deliverer_of_drains (shaped : WellShaped world) {thread : τ} {frame : Frame ι}
    (mem : frame ∈ world.frames thread) (active : frame.stage.drains = true) :
    world.registry.deliverer? = some thread := by
  obtain ⟨depth, found⟩ := List.mem_iff_getElem?.mp mem
  exact ((shaped thread).bottom_of_drains found active).1

theorem Pledged.origin {thread : τ} {call : Call ι} {arrival : Nat} {reply : Reply}
    (h : Pledged world thread call arrival reply) :
    (∃ payload, call = .register payload ∧ reply = .registration .delivered) ∨
    (∃ consumer flushed, call = .install consumer ∧ reply = .installation (.installed flushed)) := by
  unfold Pledged at h
  split at h
  · exact .inl ⟨_, rfl, rfl⟩
  · exact .inr ⟨_, _, rfl, rfl⟩
  · exact h.elim

theorem Entitled.pledged {thread : τ} {frame : Frame ι} (h : Entitled world thread frame)
    (active : frame.stage.drains = true) :
    ∃ reply, frame.stage.drainReply? = some reply ∧
      Pledged world thread frame.call frame.arrival reply := by
  obtain ⟨call, arrival, stage⟩ := frame
  cases stage with
  | pumping reply consumer last => exact ⟨reply, rfl, h⟩
  | accepting reply number consumer payload => exact ⟨reply, rfl, h⟩
  | _ => simp [Stage.drains] at active

theorem Coherent.inPump_of_drains (h : Coherent world) {thread : τ} {frame : Frame ι}
    (mem : frame ∈ world.frames thread) (active : frame.stage.drains = true) : frame.InPump := by
  obtain ⟨reply, due, pledged⟩ := (h.promises.calls thread frame mem).pledged active
  rcases pledged.origin with ⟨payload, call, rfl⟩ | ⟨consumer, flushed, call, rfl⟩
  · exact .inl ⟨payload, call, due⟩
  · exact .inr ⟨consumer, flushed, call, due⟩

/-- The registry names a thread as its deliverer exactly while that thread is in the delivery. -/
theorem Coherent.deliverer_iff (h : Coherent world) (thread : τ) :
    world.registry.deliverer? = some thread ↔ world.InPump thread := by
  constructor
  · intro named
    obtain ⟨frame, mem, active⟩ := (h.shaped thread).exists_drains named
    exact ⟨frame, mem, h.inPump_of_drains mem active⟩
  · rintro ⟨frame, mem, pumping⟩
    exact h.shaped.deliverer_of_drains mem pumping.drains

theorem Coherent.inPump_unique (h : Coherent world) {thread other : τ} (one : world.InPump thread)
    (two : world.InPump other) : thread = other := by
  have named := (h.deliverer_iff thread).mpr one
  have also := (h.deliverer_iff other).mpr two
  exact Option.some.inj (named.symm.trans also)

theorem WellShaped.accepts_unique (shaped : WellShaped world) {thread other : τ} {depth level : Nat}
    (one : world.Accepts thread depth) (two : world.Accepts other level) :
    thread = other ∧ depth = level := by
  obtain ⟨frame, found, inside⟩ := one
  obtain ⟨second, there, within⟩ := two
  have first := (shaped thread).bottom_of_drains found (Stage.drains_of_isAccepting inside)
  have last := (shaped other).bottom_of_drains there (Stage.drains_of_isAccepting within)
  obtain rfl : thread = other := Option.some.inj (first.1.symm.trans last.1)
  exact ⟨rfl, by omega⟩

variable {delivery : Delivery ι τ}

theorem Coherent.length_popped (h : Coherent world) (phase : world.registry.phase = .attached delivery) :
    (world.popped delivery).length + delivery.completed = (handed world.history).length := by
  have completed := (h.ledger.attached phase).2.1
  have bounds := h.ledger.bounds h.shaped
  simp only [World.popped, List.length_drop]
  omega

theorem progress_holds {handed : List Payload} {endings : List (Nat × Ending)} {settled : Nat}
    {stage : Stage ι} (h : Progress handed endings settled stage) (active : stage.drains = true) :
    handed.length = settled + stage.holds.toNat := by
  cases stage with
  | pumping reply consumer last =>
    cases last with
    | none => exact h.1
    | some ending => exact h.1
  | accepting reply number consumer payload => exact h.1
  | _ => simp [Stage.drains] at active

/-- The payload that is out of the queue is the one that the delivering call holds. -/
theorem Coherent.length_popped_of_drains (h : Coherent world)
    (phase : world.registry.phase = .attached delivery) {thread : τ} {frame : Frame ι}
    (mem : frame ∈ world.frames thread) (active : frame.stage.drains = true) :
    (world.popped delivery).length = frame.stage.holds.toNat := by
  have size := h.length_popped phase
  have completed := (h.ledger.attached phase).2.1
  have gone := progress_holds (h.ledger.busy thread frame mem) active
  omega

theorem Coherent.popped_of_idle (h : Coherent world)
    (phase : world.registry.phase = .attached delivery) (idle : world.registry.deliverer? = none) :
    world.popped delivery = [] := by
  have size := h.length_popped phase
  have completed := (h.ledger.attached phase).2.1
  have figures := h.ledger.quiet idle
  exact List.length_eq_zero_iff.mp (by omega)

theorem Coherent.idle_of_quiet (h : Coherent world) (quiet : ∀ thread, world.frames thread = []) :
    world.registry.deliverer? = none := by
  cases named : world.registry.deliverer? with
  | none => rfl
  | some thread =>
    obtain ⟨frame, mem, _⟩ := (h.deliverer_iff thread).mp named
    simp [quiet thread] at mem

theorem Coherent.inflight_of_idle (h : Coherent world)
    (phase : world.registry.phase = .attached delivery) (idle : world.registry.deliverer? = none) :
    delivery.inflight = [] := by
  apply (h.ledger.attached phase).2.2
  simpa [Registry.deliverer?, phase] using idle

theorem Coherent.length_popped_le (h : Coherent world)
    (phase : world.registry.phase = .attached delivery) : (world.popped delivery).length ≤ 1 := by
  cases named : world.registry.deliverer? with
  | none => simp [h.popped_of_idle phase named]
  | some thread =>
    obtain ⟨frame, mem, active⟩ := (h.shaped thread).exists_drains named
    rw [h.length_popped_of_drains phase mem active]
    exact Bool.toNat_le _

theorem Coherent.holds_iff (h : Coherent world) (phase : world.registry.phase = .attached delivery) :
    world.Holds ↔ world.popped delivery ≠ [] := by
  rw [← List.length_pos_iff]
  constructor
  · rintro ⟨thread, frame, mem, holding⟩
    rw [h.length_popped_of_drains phase mem (Stage.drains_of_holds holding), holding]
    exact Nat.zero_lt_one
  · intro out
    cases named : world.registry.deliverer? with
    | none => simp [h.popped_of_idle phase named] at out
    | some thread =>
      obtain ⟨frame, mem, active⟩ := (h.shaped thread).exists_drains named
      rw [h.length_popped_of_drains phase mem active] at out
      refine ⟨thread, frame, mem, ?_⟩
      cases held : frame.stage.holds with
      | false => simp [held] at out
      | true => rfl

theorem Coherent.enqueued_eq (h : Coherent world)
    (phase : world.registry.phase = .attached delivery) :
    delivery.enqueued =
      delivery.completed + delivery.inflight.length + (world.popped delivery).length := by
  have enqueued := (h.ledger.attached phase).1
  have arrived := congrArg List.length h.ledger.conserved
  have size := h.length_popped phase
  simp only [List.length_map, List.length_append, Registry.queue, phase] at arrived
  omega

end Coherent

section Results

variable [DecidableEq ι] [DecidableEq τ] {world : World ι τ}

/-- The delivery in every world with a consumer, and no call in the delivery in a world without one:
the round of a delivering call that finds no consumer never happens. -/
theorem delivery_invariant (reached : Reachable world) :
    (∀ delivery, world.registry.phase = .attached delivery →
      (∀ thread other depth level, world.Accepts thread depth → world.Accepts other level →
        thread = other ∧ depth = level) ∧
      (∀ thread, delivery.deliverer = some thread ↔ world.InPump thread) ∧
      (∀ thread other, world.InPump thread → world.InPump other → thread = other) ∧
      (delivery.deliverer = none → delivery.inflight = []) ∧
      (world.Holds → delivery.enqueued = delivery.completed + delivery.inflight.length + 1) ∧
      (¬ world.Holds → delivery.enqueued = delivery.completed + delivery.inflight.length) ∧
      (world.Holds ↔ world.popped delivery ≠ []) ∧ (world.popped delivery).length ≤ 1) ∧
    (∀ thread call arrival reply consumer last rest,
      world.frames thread = ⟨call, arrival, .pumping reply consumer last⟩ :: rest →
      ∃ delivery, world.registry.phase = .attached delivery) := by
  have all := coherent reached
  constructor
  · intro delivery phase
    have names : ∀ thread, delivery.deliverer = some thread ↔ world.InPump thread := by
      intro thread
      rw [← all.deliverer_iff thread, Registry.deliverer?, phase]
    have few := all.length_popped_le phase
    have sum := all.enqueued_eq phase
    have held := all.holds_iff phase
    refine ⟨?_, names, ?_, (all.ledger.attached phase).2.2, ?_, ?_, held, few⟩
    · intro thread other depth level one two
      exact all.shaped.accepts_unique one two
    · intro thread other one two
      exact all.inPump_unique one two
    · intro holding
      have out := List.length_pos_iff.mpr (held.mp holding)
      omega
    · intro free
      have out : world.popped delivery = [] := by
        by_contra some_popped
        exact free (held.mpr some_popped)
      rw [out, List.length_nil] at sum
      omega
  · intro thread call arrival reply consumer last rest top
    have named := ((top ▸ all.shaped thread).of_drains rfl).1
    cases phase : world.registry.phase with
    | awaiting pending => simp [Registry.deliverer?, phase] at named
    | attached delivery => exact ⟨delivery, rfl⟩

/-- While the consumer is called for what was buffered, it registers a payload itself, and so does
another thread. -/
def busyDelivery (first second third : Payload) : List (Nat × Move Nat) :=
  [(1, .call (.register first)), (1, .proceed), (1, .proceed),
   (0, .call (.install 7)), (0, .proceed), (0, .proceed),
   (0, .call (.register second)), (0, .proceed),
   (2, .call (.register third)), (2, .proceed)]

theorem delivery_invariant_busyDelivery : ∃ (world : World Nat Nat) (delivery : Delivery Nat Nat),
    (World.start "implementors").run (busyDelivery ⟨⟨"Clone"⟩, .empty⟩ ⟨⟨"Drop"⟩, .empty⟩
      ⟨⟨"Copy"⟩, .empty⟩) = some world ∧
    world.registry.phase = .attached delivery ∧ world.Holds ∧
    delivery.deliverer = some 0 ∧ delivery.completed = 0 ∧
    delivery.inflight = [⟨⟨"Drop"⟩, .empty⟩, ⟨⟨"Copy"⟩, .empty⟩] ∧
    world.InPump 0 ∧ ¬ world.InPump 2 ∧ delivery.enqueued = 3 := by
  have busy : ∃ (world : World Nat Nat) (delivery : Delivery Nat Nat),
      (World.start "implementors").run (busyDelivery ⟨⟨"Clone"⟩, .empty⟩ ⟨⟨"Drop"⟩, .empty⟩
        ⟨⟨"Copy"⟩, .empty⟩) = some world ∧
      world.registry.phase = .attached delivery ∧ world.Holds ∧
      delivery.deliverer = some 0 ∧ delivery.completed = 0 ∧
      delivery.inflight = [⟨⟨"Drop"⟩, .empty⟩, ⟨⟨"Copy"⟩, .empty⟩] :=
    ⟨_, _, rfl, rfl, ⟨0, _, List.mem_cons_of_mem _ List.mem_cons_self, rfl⟩, rfl, rfl, rfl⟩
  obtain ⟨world, delivery, ran, phase, held, named, completed, queue⟩ := busy
  have invariant := (delivery_invariant ⟨_, _, ran⟩).1 delivery phase
  have inside := (invariant.2.1 0).mp named
  refine ⟨world, delivery, ran, phase, held, named, completed, queue, inside, ?_, ?_⟩
  · intro also
    exact absurd (invariant.2.2.1 0 2 inside also) (by decide)
  · rw [invariant.2.2.2.2.1 held, completed, queue]
    rfl

end Results

end ImplementorIndex.Threads
