import ImplementorIndex.Proofs.Threads.Promises

/-!
# What a reply promises

A call returns in one step. The main statement says what is true at that moment: who is told that a
payload was delivered can rely on the consumer having seen it, who is told that it is queued is inside
the consumer, an installation returns after all that was pending has been taken, and nobody who comes
after the installation is told that a payload is buffered.
-/

namespace ImplementorIndex.Threads

variable {ι τ : Type}

/-- A step by which a call returns. -/
def Returns (world next : World ι τ) (caller : τ) (call : Call ι) (arrival : Nat) (reply : Reply) :
    Prop :=
  next.history = world.history ++ [.returned caller call arrival reply]

section Calls

variable {world : World ι τ} {thread : τ} {call : Call ι} {arrival : Nat} {reply : Reply}

/-- A call that is about to say that its payload is queued was made inside another one. -/
def QueuedInside : List (Frame ι) → Prop
  | [] => True
  | frame :: rest => frame.stage = .leaving (.registration .queued) → rest ≠ []

theorem QueuedInside.notified (last : Option Ending) (h : QueuedInside (world.frames thread)) :
    QueuedInside (world.notified last thread) := by
  cases last with
  | none => exact h
  | some ending =>
    simp only [World.notified]
    generalize world.frames thread = stack at h
    cases stack with
    | nil => trivial
    | cons frame rest =>
      intro told
      obtain ⟨call, arrival, stage⟩ := frame
      cases stage with
      | leaving reply => simpa using h told
      | _ => simp [Stage.wake] at told

theorem Pledged.ne_queued (h : Pledged world thread call arrival reply) :
    reply ≠ .registration .queued := by
  rintro rfl
  cases call <;> exact h

end Calls

section Transitions

variable [DecidableEq τ] {world next : World ι τ} {thread caller : τ} {call : Call ι} {arrival : Nat}
  {reply : Reply}

theorem Transition.of_returns (h : Transition world thread next)
    (returns : Returns world next caller call arrival reply) :
    world.frames caller = ⟨call, arrival, .leaving reply⟩ :: next.frames caller := by
  unfold Returns at returns
  cases h
  case returned top =>
    simp only [List.append_cancel_left_eq, List.cons.injEq, Occurrence.returned.injEq] at returns
    obtain ⟨⟨rfl, rfl, rfl, rfl⟩, _⟩ := returns
    simpa using top
  all_goals simp at returns

theorem queuedInside_step (all : Coherent world) (inside : ∀ other, QueuedInside (world.frames other))
    (h : Transition world thread next) : ∀ other, QueuedInside (next.frames other) := by
  have of_own : ∀ (last : Option Ending) {stack : List (Frame ι)},
      next.frames = Function.update (world.notified last) thread stack → QueuedInside stack →
      ∀ other, QueuedInside (next.frames other) := by
    intro last stack frames own
    apply calls_of_own (motive := fun _ => QueuedInside) last frames own
    intro other _
    exact (inside other).notified last
  have shaped := all.shaped thread
  -- Only a caller that is itself the deliverer is told so, and it is inside the consumer.
  cases h with
  | joined top phase busy outcome =>
    refine of_own none rfl ?_
    rcases outcome with ⟨rfl, _, rfl⟩ | ⟨_, _, ⟨_, rfl⟩ | ⟨_, rfl⟩⟩
    · rw [top] at shaped
      rcases shaped.of_passive rfl with ⟨not, _⟩ | ⟨_, below, rfl, _⟩
      · exact absurd (by simp [Registry.deliverer?, phase, busy]) not
      · exact fun _ => List.cons_ne_nil _ _
    · exact fun told => by simp at told
    · exact fun told => by simp at told
  | looked top =>
    refine of_own none rfl fun told => ?_
    unfold waitStage at told
    split at told <;> simp at told
  | drained top | detached top =>
    have pledged := all.promises.calls thread _ (top ▸ List.mem_cons_self)
    refine of_own _ rfl fun told => ?_
    exact absurd (Stage.leaving.inj told) (Pledged.ne_queued pledged)
  | handedOver top => exact of_own _ rfl fun told => by simp at told
  | returned top =>
    rw [top] at shaped
    refine of_own none rfl ?_
    rcases shaped.of_passive rfl with ⟨_, rfl⟩ | ⟨_, below, rfl, accepting⟩
    · trivial
    · intro told
      rw [told] at accepting
      simp [Stage.isAccepting] at accepting
  | called | buffered | claimed | installed | kept | rejected | ended =>
    exact of_own none rfl fun told => by simp at told

end Transitions

section Figures

variable {world : World ι τ}

/-- The ends that were counted are those of the first hand-overs, each under its own counter. -/
theorem Coherent.counted (h : Coherent world) :
    ((endings world.history).take world.registry.counters.settled).map Prod.fst =
      List.range world.registry.counters.settled ∧
    world.registry.counters.delivered =
      ((endings world.history).take world.registry.counters.settled).countP
        (fun e => e.2 = .returned) ∧
    world.registry.counters.panicked =
      ((endings world.history).take world.registry.counters.settled).countP
        (fun e => ¬ e.2 = .returned) := by
  have bounds := h.ledger.bounds h.shaped
  have tallied := h.ledger.tallied
  refine ⟨?_, tallied, ?_⟩
  · rw [List.map_take, h.ledger.numbered, List.take_range, Nat.min_eq_left bounds.1]
  · have parts := List.length_eq_countP_add_countP (fun e : Nat × Ending => decide (e.2 = .returned))
      (l := (endings world.history).take world.registry.counters.settled)
    rw [List.length_take, Nat.min_eq_left bounds.1, ← tallied] at parts
    simp only [decide_eq_true_eq] at parts
    unfold Counters.settled at parts ⊢
    omega

theorem Coherent.ended (h : Coherent world) {number : Nat}
    (bound : number < world.registry.counters.settled) :
    ∃ ending, (number, ending) ∈ endings world.history := by
  have bounds := h.ledger.bounds h.shaped
  have found : number ∈ (endings world.history).map Prod.fst := by
    rw [h.ledger.numbered]
    exact List.mem_range.mpr (by omega)
  obtain ⟨⟨_, ending⟩, hm, rfl⟩ := List.mem_map.mp found
  exact ⟨ending, hm⟩

end Figures

section Results

variable [DecidableEq ι] [DecidableEq τ] {world next : World ι τ} {mover : τ} {move : Move ι}

theorem queuedInside (reached : Reachable world) (thread : τ) :
    QueuedInside (world.frames thread) := by
  have both : Coherent world ∧ ∀ thread, QueuedInside (world.frames thread) := by
    refine reached.induction
      (motive := fun world => Coherent world ∧ ∀ thread, QueuedInside (world.frames thread)) ?_ ?_
    · intro label
      exact ⟨coherent_start label, fun _ => trivial⟩
    · intro world next thread h step
      exact ⟨coherent_step h.1 step, queuedInside_step h.1 h.2 step⟩
  exact both.2 thread

omit [DecidableEq ι] [DecidableEq τ] in
/-- What was pending at a cut of the history is the first part of what was handed over. -/
theorem Coherent.take_handed (h : Coherent world) {before after : List (Occurrence ι τ)}
    (split : world.history = before ++ after)
    (made : (arrivals before).length ≤ (handed world.history).length) :
    (handed world.history).take (arrivals before).length = (arrivals before).map Prod.snd := by
  have early : (arrivals before).map Prod.snd <+: (arrivals world.history).map Prod.snd := by
    rw [split, arrivals_append, List.map_append]
    exact List.prefix_append _ _
  have inside := List.prefix_of_prefix_length_le early h.handed_isPrefix (by simpa using made)
  simpa using (List.prefix_iff_eq_take.mp inside).symm

/-- What a return value promises, at the step by which the call returns. The arrival of a call is the
number of the registrations that entered the registry before it. -/
theorem reply_promises (reached : Reachable world) (step : world.step mover move = some next) :
    (∀ caller payload arrival,
      Returns world next caller (.register payload) arrival (.registration .delivered) →
      (arrivals world.history)[arrival]? = some (caller, payload) ∧
      (handed world.history)[arrival]? = some payload ∧
      (∃ ending, (arrival, ending) ∈ endings world.history) ∧
      arrival < world.registry.counters.delivered + world.registry.counters.panicked ∧
      ((endings world.history).take world.registry.counters.settled).map Prod.fst =
        List.range world.registry.counters.settled ∧
      world.registry.counters.delivered =
        ((endings world.history).take world.registry.counters.settled).countP
          (fun e => e.2 = .returned) ∧
      world.registry.counters.panicked =
        ((endings world.history).take world.registry.counters.settled).countP
          (fun e => ¬ e.2 = .returned)) ∧
    (∀ caller payload arrival,
      Returns world next caller (.register payload) arrival (.registration .queued) →
      ∃ frame rest, next.frames caller = frame :: rest ∧ frame.stage.isAccepting = true) ∧
    (∀ caller consumer arrival flushed,
      Returns world next caller (.install consumer) arrival (.installation (.installed flushed)) →
      ∃ before after,
        world.history = before ++ .offered caller consumer (.installed flushed) :: after ∧
        (arrivals before).length = flushed ∧
        (handed world.history).take flushed = (arrivals before).map Prod.snd ∧
        ∀ number, number < flushed → ∃ ending, (number, ending) ∈ endings world.history) ∧
    (∀ caller payload arrival position,
      Returns world next caller (.register payload) arrival (.registration (.buffered position)) →
      (arrivals world.history)[arrival]? = some (caller, payload) ∧
      ∀ before after installer consumer flushed,
        world.history = before ++ .offered installer consumer (.installed flushed) :: after →
        arrival < (arrivals before).length) := by
  have all := coherent reached
  have leaves : ∀ {caller call arrival reply}, Returns world next caller call arrival reply →
      world.frames caller = ⟨call, arrival, .leaving reply⟩ :: next.frames caller :=
    fun returns => (transition_of_step step).of_returns returns
  have kept : ∀ {caller call arrival reply}, Returns world next caller call arrival reply →
      Kept world caller call arrival reply :=
    fun returns => all.promises.calls _ ⟨_, _, .leaving _⟩ (leaves returns ▸ List.mem_cons_self)
  refine ⟨?_, ?_, ?_, ?_⟩
  · intro caller payload arrival returns
    obtain ⟨arrived, done⟩ := kept returns
    exact ⟨arrived, all.handed_of_settled arrived done, all.ended done, done, all.counted⟩
  · intro caller payload arrival returns
    have top := leaves returns
    have shape := top ▸ all.shaped caller
    have nested := (top ▸ queuedInside reached caller) rfl
    rcases shape.of_passive rfl with ⟨_, alone⟩ | ⟨_, below, only, accepting⟩
    · exact absurd alone nested
    · exact ⟨below, [], only, accepting⟩
  · intro caller consumer arrival flushed returns
    obtain ⟨offered, done⟩ := kept returns
    obtain ⟨before, after, split⟩ := List.append_of_mem offered
    have size := (all.promises.cut split).2.2
    refine ⟨before, after, split, size, ?_, fun number bound => all.ended (by omega)⟩
    have bounds := all.ledger.bounds all.shaped
    rw [← size]
    exact all.take_handed split (by omega)
  · intro caller payload arrival position returns
    obtain ⟨arrived, rfl, bound⟩ := kept returns
    refine ⟨arrived, ?_⟩
    intro before after installer consumer flushed split
    obtain ⟨_, count, size⟩ := all.promises.cut split
    omega

/-- A thread registers while another one is inside the consumer, and waits until it is woken. -/
def waitingCaller (first second : Payload) : List (Nat × Move Nat) :=
  [(1, .call (.register first)), (1, .proceed), (1, .proceed),
   (0, .call (.install 7)), (0, .proceed), (0, .proceed),
   (2, .call (.register second)), (2, .proceed),
   (0, .finish .returned), (0, .proceed), (0, .finish (.panicked .wordless)), (0, .proceed),
   (2, .proceed)]

theorem reply_promises_waitingCaller : ∃ world next : World Nat Nat,
    (World.start "implementors").run
      (waitingCaller ⟨⟨"Clone"⟩, .empty⟩ ⟨⟨"Drop"⟩, .empty⟩) = some world ∧
    world.step 2 .proceed = some next ∧
    Returns world next 2 (.register ⟨⟨"Drop"⟩, .empty⟩) 1 (.registration .delivered) ∧
    (∃ ending, (1, ending) ∈ endings world.history) ∧
    1 < world.registry.counters.delivered + world.registry.counters.panicked := by
  have returning : ∃ world next : World Nat Nat,
      (World.start "implementors").run
        (waitingCaller ⟨⟨"Clone"⟩, .empty⟩ ⟨⟨"Drop"⟩, .empty⟩) = some world ∧
      world.step 2 .proceed = some next ∧
      Returns world next 2 (.register ⟨⟨"Drop"⟩, .empty⟩) 1 (.registration .delivered) :=
    ⟨_, _, rfl, rfl, rfl⟩
  obtain ⟨world, next, ran, moved, told⟩ := returning
  have promised := (reply_promises ⟨_, _, ran⟩ moved).1 _ _ _ told
  exact ⟨world, next, ran, moved, told, promised.2.2.1, promised.2.2.2.1⟩

end Results

end ImplementorIndex.Threads
