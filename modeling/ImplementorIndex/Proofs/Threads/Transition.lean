import ImplementorIndex.Proofs.Threads.Machine

/-!
# What one step can do

Every step of a thread is one of the transitions listed here, each with the condition under which it
happens and the world it leads to. All properties of runs are derived from this list: what holds of a
fresh registry and survives every transition holds of every world that a schedule reaches.
-/

namespace ImplementorIndex

variable {ι τ : Type}

namespace Counters

def settled (counters : Counters) : Nat := counters.delivered + counters.panicked

def settle (counters : Counters) : Option Ending → Counters
  | none => counters
  | some ending => counters.count ending

def ends : Option Ending → Nat
  | none => 0
  | some _ => 1

@[simp] theorem settled_settle (counters : Counters) (last : Option Ending) :
    (counters.settle last).settled = counters.settled + ends last := by
  rcases last with _ | _ | _ <;> simp [settle, settled, ends, count] <;> omega

@[simp] theorem buffered_settle (counters : Counters) (last : Option Ending) :
    (counters.settle last).buffered = counters.buffered := by
  rcases last with _ | _ | _ <;> rfl

end Counters

namespace Registry

def deliverer? (registry : Registry ι τ) : Option τ :=
  match registry.phase with
  | .awaiting _ => none
  | .attached delivery => delivery.deliverer

theorem advance_attached {registry : Registry ι τ} {delivery : Delivery ι τ}
    (phase : registry.phase = .attached delivery) (last : Option Ending) :
    registry.advance last = match delivery.inflight with
      | [] =>
        ({ registry with
            phase := .attached { delivery with
              deliverer := none, completed := delivery.completed + Counters.ends last }
            counters := registry.counters.settle last }, none)
      | payload :: rest =>
        ({ registry with
            phase := .attached { delivery with
              inflight := rest, completed := delivery.completed + Counters.ends last }
            counters := registry.counters.settle last }, some payload) := by
  cases queue : delivery.inflight with
  | nil => cases last <;> simp [advance, phase, queue, Counters.settle, Counters.ends]
  | cons payload rest =>
    cases last <;> simp [advance, phase, queue, Counters.settle, Counters.ends]

end Registry

namespace Threads

/-- Everything that one step of a thread can do. -/
inductive Transition (world : World ι τ) (thread : τ) [DecidableEq τ] : World ι τ → Prop where
  | called (call : Call ι) (free : world.mayCall thread = true) :
    Transition world thread
      { world with
        frames := Function.update world.frames thread (⟨call, 0, .entering⟩ :: world.frames thread)
        history := world.history ++ [.called thread call] }
  | buffered {payload arrival rest pending}
    (top : world.frames thread = ⟨.register payload, arrival, .entering⟩ :: rest)
    (phase : world.registry.phase = .awaiting pending) :
    Transition world thread
      { registry := { world.registry with
          phase := .awaiting (pending ++ [payload])
          counters := { world.registry.counters with
            registered := world.registry.counters.registered + 1
            buffered := world.registry.counters.buffered + 1 } }
        frames := Function.update world.frames thread
          (⟨.register payload, (arrivals world.history).length,
            .leaving (.registration (.buffered pending.length))⟩ :: rest)
        history := world.history ++ [.received thread payload (.buffered pending.length)] }
  | claimed {payload arrival rest delivery}
    (top : world.frames thread = ⟨.register payload, arrival, .entering⟩ :: rest)
    (phase : world.registry.phase = .attached delivery) (idle : delivery.deliverer = none) :
    Transition world thread
      { registry := { world.registry with
          phase := .attached { delivery with
            inflight := delivery.inflight ++ [payload]
            enqueued := delivery.enqueued + 1
            deliverer := some thread }
          counters := { world.registry.counters with
            registered := world.registry.counters.registered + 1 } }
        frames := Function.update world.frames thread
          (⟨.register payload, (arrivals world.history).length,
            .pumping (.registration .delivered) delivery.consumer none⟩ :: rest)
        history := world.history ++ [.received thread payload .deliver] }
  | joined {payload arrival rest delivery deliverer}
    (top : world.frames thread = ⟨.register payload, arrival, .entering⟩ :: rest)
    (phase : world.registry.phase = .attached delivery) (busy : delivery.deliverer = some deliverer)
    {stage : Stage ι} {receipt : Receipt}
    (outcome : (deliverer = thread ∧ receipt = .queued ∧ stage = .leaving (.registration .queued)) ∨
      (deliverer ≠ thread ∧ receipt = .wait (delivery.enqueued + 1) ∧
        ((delivery.enqueued + 1 ≤ delivery.completed ∧ stage = .leaving (.registration .delivered)) ∨
          (delivery.completed < delivery.enqueued + 1 ∧
            stage = .waiting (delivery.enqueued + 1) true)))) :
    Transition world thread
      { registry := { world.registry with
          phase := .attached { delivery with
            inflight := delivery.inflight ++ [payload]
            enqueued := delivery.enqueued + 1 }
          counters := { world.registry.counters with
            registered := world.registry.counters.registered + 1 } }
        frames := Function.update world.frames thread
          (⟨.register payload, (arrivals world.history).length, stage⟩ :: rest)
        history := world.history ++ [.received thread payload receipt] }
  | installed {consumer arrival rest pending}
    (top : world.frames thread = ⟨.install consumer, arrival, .entering⟩ :: rest)
    (phase : world.registry.phase = .awaiting pending) :
    Transition world thread
      { registry := { world.registry with
          phase := .attached
            { consumer := consumer
              inflight := pending
              deliverer := some thread
              enqueued := pending.length
              completed := 0 } }
        frames := Function.update world.frames thread
          (⟨.install consumer, (arrivals world.history).length,
            .pumping (.installation (.installed pending.length)) consumer none⟩ :: rest)
        history := world.history ++ [.offered thread consumer (.installed pending.length)] }
  | kept {consumer arrival rest delivery}
    (top : world.frames thread = ⟨.install consumer, arrival, .entering⟩ :: rest)
    (phase : world.registry.phase = .attached delivery) (same : delivery.consumer = consumer) :
    Transition world thread
      { world with
        frames := Function.update world.frames thread
          (⟨.install consumer, (arrivals world.history).length,
            .leaving (.installation .kept)⟩ :: rest)
        history := world.history ++ [.offered thread consumer .kept] }
  | rejected {consumer arrival rest delivery}
    (top : world.frames thread = ⟨.install consumer, arrival, .entering⟩ :: rest)
    (phase : world.registry.phase = .attached delivery) (other : delivery.consumer ≠ consumer) :
    Transition world thread
      { registry := { world.registry with
          counters := { world.registry.counters with
            rejected := world.registry.counters.rejected + 1 } }
        frames := Function.update world.frames thread
          (⟨.install consumer, (arrivals world.history).length,
            .leaving (.installation .rejected)⟩ :: rest)
        history := world.history ++ [.offered thread consumer .rejected] }
  | looked {call arrival rest ticket}
    (top : world.frames thread = ⟨call, arrival, .waiting ticket false⟩ :: rest) :
    Transition world thread
      { world with
        frames := Function.update world.frames thread
          (⟨call, arrival, waitStage world.registry ticket⟩ :: rest) }
  | handedOver {call arrival rest reply consumer last delivery payload queue}
    (top : world.frames thread = ⟨call, arrival, .pumping reply consumer last⟩ :: rest)
    (phase : world.registry.phase = .attached delivery)
    (next : delivery.inflight = payload :: queue) :
    Transition world thread
      { registry := { world.registry with
          phase := .attached { delivery with
            inflight := queue
            completed := delivery.completed + Counters.ends last }
          counters := world.registry.counters.settle last }
        frames := Function.update (world.notified last) thread
          (⟨call, arrival, .accepting reply (handed world.history).length consumer payload⟩ :: rest)
        history := world.history ++ [.handedOver thread consumer payload] }
  | drained {call arrival rest reply consumer last delivery}
    (top : world.frames thread = ⟨call, arrival, .pumping reply consumer last⟩ :: rest)
    (phase : world.registry.phase = .attached delivery) (empty : delivery.inflight = []) :
    Transition world thread
      { world with
        registry := { world.registry with
          phase := .attached { delivery with
            deliverer := none
            completed := delivery.completed + Counters.ends last }
          counters := world.registry.counters.settle last }
        frames := Function.update (world.notified last) thread
          (⟨call, arrival, .leaving reply⟩ :: rest) }
  | detached {call arrival rest reply consumer last pending}
    (top : world.frames thread = ⟨call, arrival, .pumping reply consumer last⟩ :: rest)
    (phase : world.registry.phase = .awaiting pending) :
    Transition world thread
      { world with
        frames := Function.update (world.notified last) thread
          (⟨call, arrival, .leaving reply⟩ :: rest) }
  | ended {call arrival rest reply number consumer payload} (ending : Ending)
    (top : world.frames thread = ⟨call, arrival, .accepting reply number consumer payload⟩ :: rest) :
    Transition world thread
      { world with
        frames := Function.update world.frames thread
          (⟨call, arrival, .pumping reply consumer (some ending)⟩ :: rest)
        history := world.history ++ [.ended thread number ending] }
  | returned {call arrival rest reply}
    (top : world.frames thread = ⟨call, arrival, .leaving reply⟩ :: rest) :
    Transition world thread
      { world with
        frames := Function.update world.frames thread rest
        history := world.history ++ [.returned thread call arrival reply] }

section Steps

variable [DecidableEq ι] [DecidableEq τ] {world next : World ι τ} {thread : τ}

theorem transition_of_register {payload : Payload} {arrival : Nat} {rest : List (Frame ι)}
    (top : world.frames thread = ⟨.register payload, arrival, .entering⟩ :: rest) :
    Transition world thread (world.enter thread (.register payload) rest) := by
  cases phase : world.registry.phase with
  | awaiting pending =>
    have h := Transition.buffered top phase
    simpa only [World.enter, Registry.receive, phase, receiptStage] using h
  | attached delivery =>
    cases busy : delivery.deliverer with
    | none =>
      have h := Transition.claimed top phase busy
      simpa only [World.enter, Registry.receive, phase, busy, receiptStage, pumpStage] using h
    | some deliverer =>
      by_cases same : deliverer = thread
      · have h := Transition.joined top phase busy (.inl ⟨same, rfl, rfl⟩)
        simpa only [World.enter, Registry.receive, phase, busy, receiptStage, if_pos same] using h
      · have h := @Transition.joined _ _ world thread _ payload arrival rest delivery deliverer top
          phase busy (waitStage (world.registry.receive thread payload).1 (delivery.enqueued + 1))
          (.wait (delivery.enqueued + 1)) (.inr ⟨same, rfl, by
            by_cases done : delivery.enqueued + 1 ≤ delivery.completed
            · exact .inl ⟨done, by
                simp [waitStage, Registry.receive, phase, busy, Registry.completedThrough, done]⟩
            · exact .inr ⟨Nat.lt_of_not_le done, by
                simp [waitStage, Registry.receive, phase, busy, Registry.completedThrough, done]⟩⟩)
        simpa only [World.enter, Registry.receive, phase, busy, receiptStage, if_neg same] using h

theorem transition_of_install {consumer : ι} {arrival : Nat} {rest : List (Frame ι)}
    (top : world.frames thread = ⟨.install consumer, arrival, .entering⟩ :: rest) :
    Transition world thread (world.enter thread (.install consumer) rest) := by
  cases phase : world.registry.phase with
  | awaiting pending =>
    have h := Transition.installed top phase
    simpa only [World.enter, Registry.offer, phase, offerStage] using h
  | attached delivery =>
    by_cases same : delivery.consumer = consumer
    · have h := Transition.kept top phase same
      simpa only [World.enter, Registry.offer, phase, if_pos same, offerStage] using h
    · have h := Transition.rejected top phase same
      simpa only [World.enter, Registry.offer, phase, if_neg same, offerStage] using h

omit [DecidableEq ι] in
theorem transition_of_pump {call : Call ι} {arrival : Nat} {rest : List (Frame ι)} {reply : Reply}
    {consumer : ι} {last : Option Ending}
    (top : world.frames thread = ⟨call, arrival, .pumping reply consumer last⟩ :: rest) :
    Transition world thread
      (world.pump thread ⟨call, arrival, .pumping reply consumer last⟩ rest reply consumer last) := by
  cases phase : world.registry.phase with
  | awaiting pending =>
    have h := Transition.detached top phase
    simpa only [World.pump, Registry.advance, phase] using h
  | attached delivery =>
    cases queue : delivery.inflight with
    | nil =>
      have h := Transition.drained top phase queue
      simpa only [World.pump, Registry.advance_attached phase, queue] using h
    | cons payload later =>
      have h := Transition.handedOver top phase queue
      simpa only [World.pump, Registry.advance_attached phase, queue] using h

theorem transition_of_proceed (h : world.proceed thread = some next) :
    Transition world thread next := by
  unfold World.proceed at h
  split at h
  · simp at h
  · rename_i frame rest top
    obtain ⟨call, arrival, stage⟩ := frame
    cases stage with
    | entering =>
      obtain rfl := Option.some.inj h
      cases call with
      | register payload => exact transition_of_register top
      | install consumer => exact transition_of_install top
    | waiting ticket parked =>
      cases parked with
      | true => simp at h
      | false =>
        obtain rfl := Option.some.inj h
        exact .looked top
    | pumping reply consumer last =>
      obtain rfl := Option.some.inj h
      exact transition_of_pump top
    | accepting => simp at h
    | leaving reply =>
      obtain rfl := Option.some.inj h
      exact .returned top

/-- The list of transitions is complete. -/
theorem transition_of_step {move : Move ι} (h : world.step thread move = some next) :
    Transition world thread next := by
  cases move with
  | call call =>
    simp only [World.step] at h
    split at h
    · rename_i free
      obtain rfl := Option.some.inj h
      exact .called call free
    · simp at h
  | proceed => exact transition_of_proceed h
  | finish ending =>
    simp only [World.step, World.finish] at h
    split at h
    · rename_i top
      obtain rfl := Option.some.inj h
      exact .ended ending top
    · simp at h

/-- What holds of a world and survives every transition holds wherever a schedule leads from there. -/
theorem run_induction {motive : World ι τ → Prop} {schedule : List (τ × Move ι)}
    (ran : world.run schedule = some next) (start : motive world)
    (step : ∀ {world next : World ι τ} {thread : τ}, motive world →
      Transition world thread next → motive next) : motive next := by
  induction schedule generalizing world with
  | nil => exact Option.some.inj ran ▸ start
  | cons first rest ih =>
    obtain ⟨middle, moved, ran⟩ := Option.bind_eq_some_iff.mp ran
    exact ih ran (step start (transition_of_step moved))

/-- What holds at the start and survives every transition holds along every schedule. -/
theorem Reachable.induction {motive : World ι τ → Prop} (reached : Reachable world)
    (start : ∀ label, motive (World.start label))
    (step : ∀ {world next : World ι τ} {thread : τ}, motive world →
      Transition world thread next → motive next) : motive world := by
  obtain ⟨label, schedule, ran⟩ := reached
  exact run_induction ran (start label) step

theorem run_append (world : World ι τ) (earlier later : List (τ × Move ι)) :
    world.run (earlier ++ later) = (world.run earlier).bind fun next => next.run later := by
  induction earlier generalizing world with
  | nil => rfl
  | cons first rest ih =>
    simp only [List.cons_append, World.run, ih, Option.bind_assoc]

theorem Reachable.run {schedule : List (τ × Move ι)} (reached : Reachable world)
    (ran : world.run schedule = some next) : Reachable next := by
  obtain ⟨label, before, start⟩ := reached
  exact ⟨label, before ++ schedule, by rw [run_append, start, Option.bind_some, ran]⟩

end Steps

end Threads

end ImplementorIndex
