import ImplementorIndex.Proofs.Threads.Drainer

/-!
# Nobody waits in vain

A caller whose payload another thread hands over parks until enough hand-overs have been counted, and
each count wakes all who are parked. The main statement of this module: whoever waits either has its
payload still in front of a deliverer that is at work, or is awake and leaves at its next step. So a
world in which some call has not returned always has a thread that can move.
-/

namespace ImplementorIndex

def Registry.completed {ι τ : Type} (registry : Registry ι τ) : Nat :=
  match registry.phase with
  | .awaiting _ => 0
  | .attached delivery => delivery.completed

namespace Threads

variable {ι τ : Type}

/-- A caller that waits does not deliver, and it is parked only while its hand-over is not counted. -/
def Vigil (delivers : Prop) (completed : Nat) : Stage ι → Prop
  | .waiting ticket parked => ¬ delivers ∧ (parked = true → completed < ticket)
  | _ => True

def Vigilant (world : World ι τ) : Prop :=
  ∀ thread, ∀ frame ∈ world.frames thread,
    Vigil (world.registry.deliverer? = some thread) world.registry.completed frame.stage

theorem Vigil.mono {delivers now : Prop} {completed : Nat} {stage : Stage ι}
    (h : Vigil delivers completed stage) (still : now → delivers) : Vigil now completed stage := by
  cases stage with
  | waiting ticket parked => exact ⟨fun yes => h.1 (still yes), h.2⟩
  | _ => trivial

/-- Whoever was woken is not parked, however many hand-overs are counted now. -/
theorem Vigil.wake {delivers now : Prop} {completed later : Nat} {stage : Stage ι}
    (h : Vigil delivers completed stage) (still : now → delivers) : Vigil now later stage.wake := by
  cases stage with
  | waiting ticket parked => exact ⟨fun yes => h.1 (still yes), fun parked => by simp at parked⟩
  | _ => trivial

/-- A thread that does not deliver is in one call at most. -/
theorem Shape.alone_of_not {delivers : Prop} {stack : List (Frame ι)} {frame : Frame ι}
    (h : Shape delivers stack) (mem : frame ∈ stack) (not : ¬ delivers) : stack = [frame] := by
  cases h with
  | idle => simp at mem
  | calling => rw [List.mem_singleton.mp mem]
  | delivering yes => exact absurd yes not
  | nested yes => exact absurd yes not

theorem vigilant_start (label : String) : Vigilant (World.start label : World ι τ) := by
  intro thread frame mem
  simp [World.start] at mem

section Transitions

variable [DecidableEq τ] {world next : World ι τ} {thread : τ}

theorem vigilant_of_own (last : Option Ending) {stack : List (Frame ι)} (vigilant : Vigilant world)
    (frames : next.frames = Function.update (world.notified last) thread stack)
    (others : ∀ other, other ≠ thread → next.registry.deliverer? = some other →
      world.registry.deliverer? = some other)
    (counted : last = none → next.registry.completed = world.registry.completed)
    (own : ∀ frame ∈ stack,
      Vigil (next.registry.deliverer? = some thread) next.registry.completed frame.stage) :
    Vigilant next := by
  apply calls_of_own (motive := fun other stack => ∀ frame ∈ stack,
    Vigil (next.registry.deliverer? = some other) next.registry.completed frame.stage) last frames own
  intro other ne frame mem
  cases last with
  | none =>
    rw [counted rfl]
    exact (vigilant other frame mem).mono (others other ne)
  | some ending =>
    obtain ⟨old, member, rfl⟩ := List.mem_map.mp mem
    exact (vigilant other old member).wake (others other ne)

/-- Steps after which the thread is in one call, in which it does not wait. -/
theorem vigilant_of_single (last : Option Ending) {frame : Frame ι} (vigilant : Vigilant world)
    (frames : next.frames = Function.update (world.notified last) thread [frame])
    (others : ∀ other, other ≠ thread → next.registry.deliverer? = some other →
      world.registry.deliverer? = some other)
    (counted : last = none → next.registry.completed = world.registry.completed)
    (fresh : Vigil (next.registry.deliverer? = some thread) next.registry.completed frame.stage) :
    Vigilant next := by
  refine vigilant_of_own last vigilant frames others counted ?_
  intro member mem
  obtain rfl := List.mem_singleton.mp mem
  exact fresh

/-- Steps that leave the deliverer and the count alone. -/
theorem vigilant_of_same {stack : List (Frame ι)} (vigilant : Vigilant world)
    (frames : next.frames = Function.update world.frames thread stack)
    (same : next.registry.deliverer? = world.registry.deliverer?)
    (counted : next.registry.completed = world.registry.completed)
    (own : ∀ frame ∈ stack, frame ∈ world.frames thread ∨
      Vigil (world.registry.deliverer? = some thread) world.registry.completed frame.stage) :
    Vigilant next := by
  refine vigilant_of_own none vigilant frames (fun _ _ => by simp [same]) (fun _ => counted) ?_
  intro frame mem
  rw [same, counted]
  rcases own frame mem with old | fresh
  · exact vigilant thread frame old
  · exact fresh

omit [DecidableEq τ] in
theorem mem_replaced {old new : Frame ι} {rest : List (Frame ι)} {holds : Frame ι → Prop}
    (top : world.frames thread = old :: rest) (fresh : holds new) :
    ∀ frame ∈ new :: rest, frame ∈ world.frames thread ∨ holds frame := by
  intro frame mem
  rcases List.mem_cons.mp mem with rfl | mem
  · exact .inr fresh
  · exact .inl (top ▸ List.mem_cons_of_mem _ mem)

omit [DecidableEq τ] in
theorem not_completedThrough {registry : Registry ι τ} {ticket : Nat}
    (early : ¬ registry.completedThrough ticket = true) : registry.completed < ticket := by
  cases phase : registry.phase with
  | awaiting pending => simp [Registry.completedThrough, phase] at early
  | attached delivery => simpa [Registry.completedThrough, Registry.completed, phase] using early

theorem vigilant_step (shaped : WellShaped world) (vigilant : Vigilant world)
    (h : Transition world thread next) : Vigilant next := by
  have own := shaped thread
  cases h with
  | called call free =>
    refine vigilant_of_same vigilant rfl rfl rfl ?_
    intro frame mem
    rcases List.mem_cons.mp mem with rfl | mem
    · exact .inr trivial
    · exact .inl mem
  | buffered top phase =>
    refine vigilant_of_same vigilant rfl ?_ ?_ (mem_replaced top trivial)
    · simp [Registry.deliverer?, phase]
    · simp [Registry.completed, phase]
  | joined top phase busy outcome =>
    refine vigilant_of_same vigilant rfl ?_ ?_ (mem_replaced top ?_)
    · simp [Registry.deliverer?, phase]
    · simp [Registry.completed, phase]
    · rcases outcome with ⟨_, _, rfl⟩ | ⟨other, _, ⟨_, rfl⟩ | ⟨behind, rfl⟩⟩
      · trivial
      · trivial
      · -- The caller parks: another thread delivers, and not as far as its own payload.
        refine ⟨?_, fun _ => ?_⟩
        · simpa [Registry.deliverer?, phase, busy] using other
        · simpa [Registry.completed, phase] using behind
  | kept top | rejected top | ended _ top =>
    exact vigilant_of_same vigilant rfl rfl rfl (mem_replaced top trivial)
  | looked top =>
    refine vigilant_of_same vigilant rfl rfl rfl (mem_replaced top ?_)
    have before := vigilant thread _ (top ▸ List.mem_cons_self)
    unfold waitStage
    split
    · trivial
    · rename_i early
      exact ⟨before.1, fun _ => not_completedThrough early⟩
  | returned top =>
    refine vigilant_of_same vigilant rfl rfl rfl ?_
    intro frame mem
    exact .inl (top ▸ List.mem_cons_of_mem _ mem)
  | claimed top phase idle =>
    rw [top] at own
    have free : ¬ world.registry.deliverer? = some thread := by simp [Registry.deliverer?, phase, idle]
    obtain ⟨_, rfl⟩ := List.cons.inj (own.alone_of_not List.mem_cons_self free)
    refine vigilant_of_single none vigilant rfl ?_ ?_ trivial
    · intro other ne named
      simp [Registry.deliverer?, Ne.symm ne] at named
    · intro _
      simp [Registry.completed, phase]
  | installed top phase =>
    rw [top] at own
    have free : ¬ world.registry.deliverer? = some thread := by simp [Registry.deliverer?, phase]
    obtain ⟨_, rfl⟩ := List.cons.inj (own.alone_of_not List.mem_cons_self free)
    refine vigilant_of_single none vigilant rfl ?_ ?_ trivial
    · intro other ne named
      simp [Registry.deliverer?, Ne.symm ne] at named
    · intro _
      simp [Registry.completed, phase]
  | handedOver top phase queue =>
    rw [top] at own
    obtain ⟨_, rfl⟩ := own.of_drains rfl
    refine vigilant_of_single _ vigilant rfl ?_ ?_ trivial
    · intro other _ named
      simpa [Registry.deliverer?, phase] using named
    · rintro rfl
      simp [Registry.completed, phase, Counters.ends]
  | drained top phase empty =>
    rw [top] at own
    obtain ⟨_, rfl⟩ := own.of_drains rfl
    refine vigilant_of_single _ vigilant rfl ?_ ?_ trivial
    · intro other _ named
      simp [Registry.deliverer?] at named
    · rintro rfl
      simp [Registry.completed, phase, Counters.ends]
  | detached top phase =>
    have yes := ((top ▸ own).of_drains rfl).1
    simp [Registry.deliverer?, phase] at yes

end Transitions

namespace World

/-- The payloads whose hand-overs have not been counted, with their threads, in order of arrival. -/
def uncounted (world : World ι τ) (delivery : Delivery ι τ) : List (τ × Payload) :=
  (arrivals world.history).drop delivery.completed

/-- The thread can go on: its innermost call takes a step of its own, or is inside the consumer, which
may end in any way or make any call. -/
def CanMove [DecidableEq ι] [DecidableEq τ] (world : World ι τ) (thread : τ) : Prop :=
  (world.step thread .proceed).isSome ∨
  ((∀ ending, (world.step thread (.finish ending)).isSome) ∧
    ∀ call, (world.step thread (.call call)).isSome)

end World

section Coherent

variable {world : World ι τ} {delivery : Delivery ι τ}

theorem Coherent.map_uncounted (h : Coherent world)
    (phase : world.registry.phase = .attached delivery) :
    (world.uncounted delivery).map Prod.snd = world.popped delivery ++ delivery.inflight := by
  have size := h.length_popped phase
  have conserved := h.ledger.conserved
  simp only [Registry.queue, phase] at conserved
  rw [World.uncounted, List.map_drop, conserved, List.drop_append_of_le_length (by omega)]
  rfl

/-- As long as a payload is not counted, somebody delivers. -/
theorem Coherent.deliverer_of_uncounted (h : Coherent world)
    (phase : world.registry.phase = .attached delivery) {number : Nat} {sent : τ × Payload}
    (arrived : (arrivals world.history)[number]? = some sent) (behind : delivery.completed ≤ number) :
    ∃ deliverer, delivery.deliverer = some deliverer := by
  cases named : delivery.deliverer with
  | some deliverer => exact ⟨deliverer, rfl⟩
  | none =>
    have idle : world.registry.deliverer? = none := by simp [Registry.deliverer?, phase, named]
    have sum := h.enqueued_eq phase
    have out := h.popped_of_idle phase idle
    have queue := (h.ledger.attached phase).2.2 named
    have enqueued := (h.ledger.attached phase).1
    obtain ⟨bound, _⟩ := List.getElem?_eq_some_iff.mp arrived
    rw [out, queue] at sum
    simp only [List.length_nil, Nat.add_zero] at sum
    omega

theorem mem_of_getElem?_append {α : Type} {front back : List α} {place : Nat} {element : α}
    (short : front.length ≤ 1) (found : (front ++ back)[place]? = some element) :
    front = [element] ∧ place = 0 ∨ element ∈ back := by
  rcases Nat.lt_or_ge place front.length with inside | past
  · rw [List.getElem?_append_left inside] at found
    obtain ⟨first, rfl⟩ := List.length_eq_one_iff.mp (show front.length = 1 by omega)
    obtain rfl : place = 0 := by simpa using inside
    exact .inl ⟨by simpa using found, rfl⟩
  · rw [List.getElem?_append_right past] at found
    exact .inr (List.mem_of_getElem? found)

end Coherent

section Moves

variable [DecidableEq ι] [DecidableEq τ] {world : World ι τ} {thread : τ}

/-- Only a parked caller cannot move. -/
theorem canMove_of_top {call : Call ι} {arrival : Nat} {stage : Stage ι} {rest : List (Frame ι)}
    (top : world.frames thread = ⟨call, arrival, stage⟩ :: rest)
    (awake : ∀ ticket, stage ≠ .waiting ticket true) : world.CanMove thread := by
  cases stage with
  | entering => exact .inl (by simp [World.step, World.proceed, top])
  | waiting ticket parked =>
    cases parked with
    | true => exact absurd rfl (awake ticket)
    | false => exact .inl (by simp [World.step, World.proceed, top])
  | pumping reply consumer last => exact .inl (by simp [World.step, World.proceed, top])
  | accepting reply number consumer payload =>
    refine .inr ⟨fun ending => ?_, fun call => ?_⟩
    · simp [World.step, World.finish, top]
    · simp [World.step, World.mayCall, top, Stage.isAccepting]
  | leaving reply => exact .inl (by simp [World.step, World.proceed, top])

/-- A caller that looks when its hand-over has been counted leaves. -/
theorem leaves_of_completed {call : Call ι} {arrival ticket : Nat} {rest : List (Frame ι)}
    {delivery : Delivery ι τ} (phase : world.registry.phase = .attached delivery)
    (top : world.frames thread = ⟨call, arrival, .waiting ticket false⟩ :: rest)
    (done : ticket ≤ delivery.completed) :
    ∃ next, world.step thread .proceed = some next ∧
      next.frames thread = ⟨call, arrival, .leaving (.registration .delivered)⟩ :: rest := by
  have through : world.registry.completedThrough ticket = true := by
    simpa [Registry.completedThrough, phase] using done
  refine ⟨{ world with
    frames := Function.update world.frames thread
      (⟨call, arrival, waitStage world.registry ticket⟩ :: rest) }, ?_, ?_⟩
  · simp [World.step, World.proceed, top]
  · simp [waitStage, through]

end Moves

section Results

variable [DecidableEq ι] [DecidableEq τ] {world : World ι τ}

theorem vigilant (reached : Reachable world) : Vigilant world := by
  have both : WellShaped world ∧ Vigilant world := by
    refine reached.induction (motive := fun world => WellShaped world ∧ Vigilant world) ?_ ?_
    · intro label
      exact ⟨wellShaped_start label, vigilant_start label⟩
    · intro world next thread h step
      exact ⟨wellShaped_step h.1 step, vigilant_step h.1 h.2 step⟩
  exact both.2

omit [DecidableEq ι] [DecidableEq τ] in
theorem Coherent.waiting {thread : τ} {call : Call ι} {arrival ticket : Nat} {parked : Bool}
    (h : Coherent world) (mem : ⟨call, arrival, .waiting ticket parked⟩ ∈ world.frames thread) :
    ∃ payload delivery, call = .register payload ∧ world.registry.phase = .attached delivery ∧
      ticket = arrival + 1 ∧ (arrivals world.history)[arrival]? = some (thread, payload) := by
  obtain ⟨attached, ticket, payload, registers, arrived⟩ := h.promises.calls thread _ mem
  cases phase : world.registry.phase with
  | awaiting pending => simp [Registry.isAttached, phase] at attached
  | attached delivery => exact ⟨payload, delivery, registers, rfl, ticket, arrived⟩

omit [DecidableEq ι] [DecidableEq τ] in
/-- Where the payload of a caller is whose hand-over has not been counted. -/
theorem Coherent.waiting_behind {thread : τ} {payload : Payload} {arrival : Nat}
    {delivery : Delivery ι τ} (h : Coherent world)
    (phase : world.registry.phase = .attached delivery)
    (arrived : (arrivals world.history)[arrival]? = some (thread, payload))
    (behind : delivery.completed ≤ arrival) :
    (world.popped delivery = [payload] ∧ arrival = delivery.completed ∨
      payload ∈ delivery.inflight) ∧
    (world.uncounted delivery)[arrival - delivery.completed]? = some (thread, payload) := by
  have place : (world.uncounted delivery)[arrival - delivery.completed]? = some (thread, payload) := by
    rw [World.uncounted, List.getElem?_drop, Nat.add_sub_of_le behind, arrived]
  refine ⟨?_, place⟩
  have found : (world.popped delivery ++ delivery.inflight)[arrival - delivery.completed]? =
      some payload := by
    rw [← h.map_uncounted phase, List.getElem?_map, place]
    rfl
  rcases mem_of_getElem?_append (h.length_popped_le phase) found with ⟨out, first⟩ | queued
  · exact .inl ⟨out, by omega⟩
  · exact .inr queued

/-- A thread that has not come back from its call can move, or the deliverer can. -/
theorem exists_canMove (reached : Reachable world) {thread : τ} (busy : world.frames thread ≠ []) :
    ∃ mover, world.CanMove mover ∧ (mover = thread ∨ world.InPump mover) := by
  have all := coherent reached
  have awake := vigilant reached
  obtain ⟨⟨call, arrival, stage⟩, rest, top⟩ := List.exists_cons_of_ne_nil busy
  by_cases parked : ∃ ticket, stage = .waiting ticket true
  · obtain ⟨ticket, rfl⟩ := parked
    have mem : ⟨call, arrival, .waiting ticket true⟩ ∈ world.frames thread := top ▸ List.mem_cons_self
    obtain ⟨payload, delivery, _, phase, rfl, arrived⟩ := all.waiting mem
    have behind : delivery.completed < arrival + 1 := by
      have early := (awake thread _ mem).2 rfl
      simpa [Registry.completed, phase] using early
    obtain ⟨deliverer, named⟩ := all.deliverer_of_uncounted phase arrived (by omega)
    have delivers : world.registry.deliverer? = some deliverer := by
      simp [Registry.deliverer?, phase, named]
    refine ⟨deliverer, ?_, .inr ((all.deliverer_iff deliverer).mp delivers)⟩
    obtain ⟨frame, member, _⟩ := (all.shaped deliverer).exists_drains delivers
    obtain ⟨⟨innermost, number, state⟩, below, first⟩ :=
      List.exists_cons_of_ne_nil (List.ne_nil_of_mem member)
    refine canMove_of_top first ?_
    rintro other rfl
    -- The deliverer does not wait, not even in a call that its consumer makes.
    have vigil := awake deliverer ⟨innermost, number, .waiting other true⟩
      (first ▸ List.mem_cons_self)
    exact vigil.1 delivers
  · refine ⟨thread, canMove_of_top top ?_, .inl rfl⟩
    rintro ticket rfl
    exact parked ⟨ticket, rfl⟩

/-- No caller is stranded. One that waits with a ticket beyond the count has its payload in the queue
or just taken out of it, with the tickets in between in front of it, and another thread delivers. One
whose ticket is covered is not parked, and its next step is to leave. And as long as some call has
not returned, its own thread or the deliverer can move. -/
theorem waiting_not_stranded (reached : Reachable world) :
    (∀ thread call arrival ticket parked,
      ⟨call, arrival, .waiting ticket parked⟩ ∈ world.frames thread →
      ∃ payload delivery, call = .register payload ∧ world.registry.phase = .attached delivery ∧
        ticket = arrival + 1 ∧ (arrivals world.history)[arrival]? = some (thread, payload) ∧
        ((delivery.completed < ticket ∧
            (∃ deliverer, deliverer ≠ thread ∧ delivery.deliverer = some deliverer ∧
              world.InPump deliverer) ∧
            (world.popped delivery = [payload] ∧ ticket = delivery.completed + 1 ∨
              payload ∈ delivery.inflight) ∧
            (world.uncounted delivery).map Prod.snd = world.popped delivery ++ delivery.inflight ∧
            (world.uncounted delivery)[ticket - delivery.completed - 1]? = some (thread, payload)) ∨
          (ticket ≤ delivery.completed ∧ parked = false ∧
            ∃ next, world.step thread .proceed = some next ∧
              next.frames thread = [⟨call, arrival, .leaving (.registration .delivered)⟩]))) ∧
    (∀ thread, world.frames thread ≠ [] →
      ∃ mover, world.CanMove mover ∧ (mover = thread ∨ world.InPump mover)) := by
  have all := coherent reached
  refine ⟨?_, fun thread busy => exists_canMove reached busy⟩
  intro thread call arrival ticket parked mem
  have awake := vigilant reached thread _ mem
  obtain ⟨payload, delivery, registers, phase, rfl, arrived⟩ := all.waiting mem
  refine ⟨payload, delivery, registers, phase, rfl, arrived, ?_⟩
  rcases Nat.lt_or_ge delivery.completed (arrival + 1) with behind | done
  · obtain ⟨deliverer, named⟩ := all.deliverer_of_uncounted phase arrived (by omega)
    have delivers : world.registry.deliverer? = some deliverer := by
      simp [Registry.deliverer?, phase, named]
    obtain ⟨out, place⟩ := all.waiting_behind phase arrived (by omega)
    refine .inl ⟨behind, ⟨deliverer, ?_, named, (all.deliverer_iff deliverer).mp delivers⟩, ?_,
      all.map_uncounted phase, ?_⟩
    · rintro rfl
      exact awake.1 delivers
    · rcases out with ⟨out, first⟩ | queued
      · exact .inl ⟨out, by omega⟩
      · exact .inr queued
    · rw [Nat.sub_right_comm, Nat.add_sub_cancel]
      exact place
  · have woken : parked = false := by
      rw [← Bool.not_eq_true]
      intro yes
      have behind := awake.2 yes
      simp only [Registry.completed, phase] at behind
      omega
    subst woken
    have alone := (all.shaped thread).alone_of_not mem awake.1
    exact .inr ⟨done, rfl, leaves_of_completed phase alone done⟩

/-- Two threads register while a third is inside the consumer: one is woken when the hand-over under
way is counted, and parks again. -/
def parkedAgain (first second third : Payload) : List (Nat × Move Nat) :=
  [(0, .call (.install 7)), (0, .proceed), (0, .proceed), (0, .proceed),
   (0, .call (.register first)), (0, .proceed), (0, .proceed),
   (1, .call (.register second)), (1, .proceed),
   (2, .call (.register third)), (2, .proceed),
   (0, .finish .returned), (0, .proceed), (2, .proceed)]

theorem waiting_not_stranded_parkedAgain : ∃ world : World Nat Nat,
    (World.start "implementors").run (parkedAgain ⟨⟨"Clone"⟩, .empty⟩ ⟨⟨"Drop"⟩, .empty⟩
      ⟨⟨"Copy"⟩, .empty⟩) = some world ∧
    world.frames 2 = [⟨.register ⟨⟨"Copy"⟩, .empty⟩, 2, .waiting 3 true⟩] ∧
    (∃ deliverer, deliverer ≠ 2 ∧ world.InPump deliverer) ∧
    ∃ mover, world.CanMove mover ∧ (mover = 2 ∨ world.InPump mover) := by
  have parked : ∃ world : World Nat Nat,
      (World.start "implementors").run (parkedAgain ⟨⟨"Clone"⟩, .empty⟩ ⟨⟨"Drop"⟩, .empty⟩
        ⟨⟨"Copy"⟩, .empty⟩) = some world ∧
      world.frames 2 = [⟨.register ⟨⟨"Copy"⟩, .empty⟩, 2, .waiting 3 true⟩] := ⟨_, rfl, rfl⟩
  obtain ⟨world, ran, top⟩ := parked
  have promised := waiting_not_stranded ⟨_, _, ran⟩
  refine ⟨world, ran, top, ?_, promised.2 2 (by simp [top])⟩
  obtain ⟨_, _, _, _, _, _, behind | done⟩ := promised.1 2 _ _ _ _ (top ▸ List.mem_cons_self)
  · obtain ⟨deliverer, other, _, pumping⟩ := behind.2.1
    exact ⟨deliverer, other, pumping⟩
  · exact absurd done.2.1 (by decide)

end Results

end Threads

end ImplementorIndex
