import Mathlib.Data.List.Nodup
import ImplementorIndex.Proofs.Threads.Promises

/-!
# Every payload once, in order of arrival

The main statement of this module: in every world that a schedule reaches, what was registered is what
was handed over followed by what is queued. Nothing is lost, nothing is handed over twice, the payloads
of one thread keep the order of its calls, and a buffered payload is handed over under the very number
that its caller was told.
-/

namespace ImplementorIndex.Threads

variable {ι τ : Type}

def Frame.announced? (frame : Frame ι) : Option Payload :=
  match frame.stage, frame.call with
  | .entering, .register payload => some payload
  | _, _ => none

def announced (stack : List (Frame ι)) : List Payload := stack.filterMap Frame.announced?

@[simp] theorem announced_cons (frame : Frame ι) (rest : List (Frame ι)) :
    announced (frame :: rest) = frame.announced?.toList ++ announced rest := by
  cases h : frame.announced? <;> simp [announced, h]

theorem announced?_wake (frame : Frame ι) : frame.wake.announced? = frame.announced? := by
  obtain ⟨call, arrival, stage⟩ := frame
  cases stage <;> rfl

theorem announced_notified (world : World ι τ) (last : Option Ending) (thread : τ) :
    announced (world.notified last thread) = announced (world.frames thread) := by
  cases last with
  | none => rfl
  | some ending =>
    simp only [announced, World.notified, List.filterMap_map]
    exact List.filterMap_congr fun frame _ => announced?_wake frame

theorem announced?_of_drains {frame : Frame ι} (active : frame.stage.drains = true) :
    frame.announced? = none := by
  obtain ⟨call, arrival, stage⟩ := frame
  cases stage <;> first | rfl | simp [Stage.drains] at active

/-- Only the innermost call of a thread can be about to register. -/
theorem Shape.announced_below {delivers : Prop} {frame : Frame ι} {rest : List (Frame ι)}
    (h : Shape delivers (frame :: rest)) : announced rest = [] := by
  cases h with
  | calling => rfl
  | delivering => rfl
  | nested _ _ inside =>
    rw [announced_cons, announced?_of_drains (Stage.drains_of_isAccepting inside)]
    rfl

section Threads

variable [DecidableEq τ]

/-- A thread has registered what it began to register, apart from the call it is just making. -/
def InCallOrder (world : World ι τ) : Prop :=
  ∀ thread, own thread (registrations world.history) =
    own thread (arrivals world.history) ++ announced (world.frames thread)

variable {world next : World ι τ} {thread : τ}

theorem inCallOrder_of_own (last : Option Ending) {stack : List (Frame ι)} (order : InCallOrder world)
    (begun arrived : List Payload)
    (frames : next.frames = Function.update (world.notified last) thread stack)
    (registered : registrations next.history =
      registrations world.history ++ begun.map fun payload => (thread, payload))
    (entered : arrivals next.history =
      arrivals world.history ++ arrived.map fun payload => (thread, payload))
    (balanced : announced (world.frames thread) ++ begun = arrived ++ announced stack) :
    InCallOrder next := by
  apply calls_of_own (motive := fun other stack => own other (registrations next.history) =
    own other (arrivals next.history) ++ announced stack) last frames
  · rw [registered, entered, own_append, own_append, order thread, own_self,
      own_self, List.append_assoc, List.append_assoc, balanced]
  · intro other ne
    rw [registered, entered, own_append, own_append, order other, own_other ne,
      own_other ne, announced_notified, List.append_nil, List.append_nil]

/-- The innermost call goes on: what it had announced has arrived. -/
theorem inCallOrder_of_top (last : Option Ending) {frame : Frame ι} {rest stack : List (Frame ι)}
    (shaped : WellShaped world) (order : InCallOrder world)
    (top : world.frames thread = frame :: rest)
    (frames : next.frames = Function.update (world.notified last) thread stack)
    (silent : announced rest = [] → announced stack = [])
    (registered : registrations next.history = registrations world.history)
    (entered : arrivals next.history = arrivals world.history ++
      frame.announced?.toList.map fun payload => (thread, payload)) : InCallOrder next := by
  have below := (top ▸ shaped thread).announced_below
  refine inCallOrder_of_own last order [] frame.announced?.toList frames ?_ entered ?_
  · simpa using registered
  · rw [top, announced_cons, below, silent below, List.append_nil]

theorem inCallOrder_step (shaped : WellShaped world) (order : InCallOrder world)
    (h : Transition world thread next) : InCallOrder next := by
  cases h with
  | called call free =>
    have silent : announced (world.frames thread) = [] := by
      have below := shaped thread
      unfold World.mayCall at free
      generalize world.frames thread = stack at below free
      cases stack with
      | nil => rfl
      | cons frame rest =>
        rw [announced_cons, announced?_of_drains (Stage.drains_of_isAccepting free),
          below.announced_below]
        rfl
    cases call with
    | register payload =>
      refine inCallOrder_of_own none order [payload] [] rfl (by simp) (by simp) ?_
      rw [announced_cons, silent]
      rfl
    | install consumer =>
      exact inCallOrder_of_own none order [] [] rfl (by simp) (by simp) (List.append_nil _)
  | joined top _ _ outcome =>
    refine inCallOrder_of_top none shaped order top rfl ?_ (by simp) (by simp [Frame.announced?])
    intro below
    rcases outcome with ⟨_, _, rfl⟩ | ⟨_, _, ⟨_, rfl⟩ | ⟨_, rfl⟩⟩ <;>
      simpa [Frame.announced?] using below
  | looked top =>
    refine inCallOrder_of_top none shaped order top rfl ?_ rfl (by simp [Frame.announced?])
    intro below
    unfold waitStage
    split <;> simpa [Frame.announced?] using below
  | buffered top | claimed top | installed top | kept top | rejected top | ended _ top =>
    exact inCallOrder_of_top none shaped order top rfl (by simp [Frame.announced?]) (by simp)
      (by simp [Frame.announced?])
  | handedOver top =>
    exact inCallOrder_of_top _ shaped order top rfl (by simp [Frame.announced?]) (by simp)
      (by simp [Frame.announced?])
  | drained top | detached top =>
    exact inCallOrder_of_top _ shaped order top rfl (by simp [Frame.announced?]) rfl
      (by simp [Frame.announced?])
  | returned top =>
    exact inCallOrder_of_top none shaped order top rfl id (by simp) (by simp [Frame.announced?])

theorem filter_mem_own {list : List (τ × Payload)} (distinct : (list.map Prod.snd).Nodup)
    (thread : τ) :
    ((list.map Prod.snd).filter fun payload => payload ∈ own thread list) =
      own thread list := by
  rw [List.filter_map]
  refine congrArg (List.map Prod.snd) (List.filter_congr ?_)
  intro sent hm
  simp only [Function.comp_apply, decide_eq_decide]
  constructor
  · intro found
    obtain ⟨same, hs, eq⟩ := List.mem_map.mp found
    obtain ⟨hs, mine⟩ := List.mem_filter.mp hs
    rw [← List.inj_on_of_nodup_map distinct hs hm eq]
    exact of_decide_eq_true mine
  · intro mine
    exact List.mem_map.mpr ⟨sent, List.mem_filter.mpr ⟨hm, decide_eq_true mine⟩, rfl⟩

end Threads

section Results

variable [DecidableEq ι] [DecidableEq τ] {world : World ι τ}

theorem inCallOrder (reached : Reachable world) : InCallOrder world := by
  have both : WellShaped world ∧ InCallOrder world := by
    refine reached.induction (motive := fun world => WellShaped world ∧ InCallOrder world) ?_ ?_
    · intro label
      exact ⟨wellShaped_start label, fun _ => rfl⟩
    · intro world next thread h step
      exact ⟨wellShaped_step h.1 step, inCallOrder_step h.1 h.2 step⟩
  exact both.2

theorem arrivals_eq_handed_append (reached : Reachable world) {delivery : Delivery ι τ}
    (phase : world.registry.phase = .attached delivery) :
    (arrivals world.history).map Prod.snd = handed world.history ++ delivery.inflight := by
  have conserved := (coherent reached).ledger.conserved
  simpa only [Registry.queue, phase] using conserved

theorem own_arrivals_isPrefix (reached : Reachable world) (thread : τ) :
    own thread (arrivals world.history) <+: own thread (registrations world.history) :=
  ⟨_, (inCallOrder reached thread).symm⟩

/-- When no call is under way, an attached registry has handed over all that was registered. -/
theorem handed_eq_of_quiet (reached : Reachable world)
    (attached : world.registry.isAttached = true) (quiet : ∀ thread, world.frames thread = []) :
    handed world.history = (arrivals world.history).map Prod.snd := by
  obtain ⟨shaped, ledger, _⟩ := coherent reached
  cases phase : world.registry.phase with
  | awaiting pending => simp [Registry.isAttached, phase] at attached
  | attached delivery =>
    have idle : delivery.deliverer = none := by
      cases busy : delivery.deliverer with
      | none => rfl
      | some thread =>
        have shape := quiet thread ▸ shaped thread
        cases shape with
        | idle not => exact absurd (by simp [Registry.deliverer?, phase, busy]) not
    rw [arrivals_eq_handed_append reached phase, (ledger.attached phase).2.2 idle, List.append_nil]

theorem buffered_number (reached : Reachable world) {thread : τ} {payload : Payload}
    {arrival position : Nat}
    (told : .returned thread (.register payload) arrival (.registration (.buffered position)) ∈
      world.history) :
    position = arrival ∧ (arrivals world.history)[position]? = some (thread, payload) ∧
      position < world.registry.counters.buffered := by
  obtain ⟨found, rfl, bound⟩ := (coherent reached).promises.returns told
  exact ⟨rfl, found, bound⟩

/-- Exactly once, in order of arrival. While no consumer is there, what was registered is pending.
Afterwards it is what was handed over followed by what is in flight, and all of it was handed over
once no call is under way. So nothing is lost or handed over twice, and the payloads of one thread
keep the order in which it began to register them. A caller told that its payload is buffered was told
its number among the hand-overs, and once the installation has returned that hand-over has been made. -/
theorem exactly_once_in_order (reached : Reachable world) :
    (∀ pending, world.registry.phase = .awaiting pending →
      (arrivals world.history).map Prod.snd = pending ∧ handed world.history = []) ∧
    (∀ delivery, world.registry.phase = .attached delivery →
      (arrivals world.history).map Prod.snd = handed world.history ++ delivery.inflight ∧
      ((∀ thread, world.frames thread = []) →
        handed world.history = (arrivals world.history).map Prod.snd)) ∧
    (∀ payload, ((arrivals world.history).map Prod.snd).count payload =
      (handed world.history).count payload + world.registry.queue.count payload) ∧
    (∀ thread, own thread (arrivals world.history) <+:
      own thread (registrations world.history)) ∧
    (((arrivals world.history).map Prod.snd).Nodup →
      (handed world.history).Nodup ∧
      ∀ thread, ((handed world.history).filter fun payload =>
          payload ∈ own thread (arrivals world.history)) <+:
        own thread (registrations world.history)) ∧
    (∀ thread payload arrival position,
      .returned thread (.register payload) arrival (.registration (.buffered position)) ∈
        world.history →
      (arrivals world.history)[position]? = some (thread, payload) ∧
      (∀ first, (handed world.history)[position]? = some first → first = payload) ∧
      (∀ installer consumer cut flushed,
        .returned installer (.install consumer) cut (.installation (.installed flushed)) ∈
          world.history →
        (handed world.history)[position]? = some payload)) := by
  have all := coherent reached
  refine ⟨?_, ?_, ?_, own_arrivals_isPrefix reached, ?_, ?_⟩
  · intro pending phase
    exact (all.ledger.pending phase).symm
  · intro delivery phase
    exact ⟨arrivals_eq_handed_append reached phase,
      handed_eq_of_quiet reached (by simp [Registry.isAttached, phase])⟩
  · intro payload
    rw [all.ledger.conserved, List.count_append]
  · intro distinct
    refine ⟨distinct.sublist all.handed_isPrefix.sublist, ?_⟩
    intro thread
    have mine := all.handed_isPrefix.filter fun payload =>
      payload ∈ own thread (arrivals world.history)
    rw [filter_mem_own distinct] at mine
    exact mine.trans (own_arrivals_isPrefix reached thread)
  · intro thread payload arrival position told
    obtain ⟨_, arrived, bound⟩ := buffered_number reached told
    refine ⟨arrived, fun first gone => all.payload_of_handed arrived gone, ?_⟩
    intro installer consumer cut flushed installed
    obtain ⟨count, done⟩ := all.flushed installed
    exact all.handed_of_settled arrived (by omega)

/-- A thread registers before there is a consumer, and the consumer registers again and breaks off. -/
def registeringConsumer (first second : Payload) : List (Nat × Move Nat) :=
  [(1, .call (.register first)), (1, .proceed), (1, .proceed),
   (0, .call (.install 7)), (0, .proceed), (0, .proceed),
   (0, .call (.register second)), (0, .proceed), (0, .proceed),
   (0, .finish (.panicked .wordless)), (0, .proceed), (0, .finish .returned), (0, .proceed),
   (0, .proceed)]

theorem exactly_once_in_order_registeringConsumer : ∃ world : World Nat Nat,
    (World.start "implementors").run
      (registeringConsumer ⟨⟨"Clone"⟩, .empty⟩ ⟨⟨"Drop"⟩, .empty⟩) = some world ∧
    handed world.history = [⟨⟨"Clone"⟩, .empty⟩, ⟨⟨"Drop"⟩, .empty⟩] ∧
    (arrivals world.history).map Prod.snd = handed world.history ++ [] ∧
    (handed world.history)[0]? = some ⟨⟨"Clone"⟩, .empty⟩ := by
  refine ⟨_, rfl, rfl, ?_, ?_⟩
  · exact ((exactly_once_in_order ⟨"implementors", registeringConsumer _ _, rfl⟩).2.1 _ rfl).1
  · exact ((exactly_once_in_order ⟨"implementors", registeringConsumer _ _, rfl⟩).2.2.2.2.2 1
      ⟨⟨"Clone"⟩, .empty⟩ 0 0 (by decide)).2.2 0 7 1 1 (by decide)

end Results

end ImplementorIndex.Threads
