import ImplementorIndex.Proofs.Threads.Consumer

/-!
# Runs without calls from inside the consumer

A consumer is plain if it makes no calls of its own and ends as a function of the payload. Here the
schedules are those that plain consumers allow. Along such a run a thread is in at most one call, and
what is counted as the end of a hand-over is what the function says.
-/

namespace ImplementorIndex.Threads

variable {ι τ : Type}

namespace World

/-- The moves of a thread that consumers allow which make no calls and end as `behaves` says. -/
def allows (behaves : ι → Payload → Ending) (world : World ι τ) (thread : τ) : Move ι → Bool
  | .call _ => (world.frames thread).isEmpty
  | .proceed => true
  | .finish ending =>
    match world.frames thread with
    | ⟨_, _, .accepting _ _ consumer payload⟩ :: _ => ending = behaves consumer payload
    | _ => false

variable [DecidableEq ι] [DecidableEq τ]

def runPlain (behaves : ι → Payload → Ending) (world : World ι τ) :
    List (τ × Move ι) → Option (World ι τ)
  | [] => some world
  | (thread, move) :: rest =>
    if world.allows behaves thread move then
      (world.step thread move).bind fun next => next.runPlain behaves rest
    else none

end World

/-- A step that plain consumers allow: a call begins on a thread that is in none, and a consumer ends
as it must. -/
structure PlainStep (behaves : ι → Payload → Ending) (world next : World ι τ) (thread : τ)
    [DecidableEq τ] : Prop where
  transition : Transition world thread next
  begins : ∀ {call}, next.history = world.history ++ [.called thread call] →
    world.frames thread = []
  ends : ∀ {number ending}, next.history = world.history ++ [.ended thread number ending] →
    ∃ call arrival reply consumer payload rest, world.frames thread =
      ⟨call, arrival, .accepting reply number consumer payload⟩ :: rest ∧
      ending = behaves consumer payload

section Runs

variable [DecidableEq ι] [DecidableEq τ] {behaves : ι → Payload → Ending} {world next : World ι τ}

/-- A step that a call takes by itself neither begins a call nor ends a consumer. -/
theorem history_of_proceed {thread : τ} (h : world.proceed thread = some next) :
    (∀ call, next.history ≠ world.history ++ [.called thread call]) ∧
    ∀ number ending, next.history ≠ world.history ++ [.ended thread number ending] := by
  unfold World.proceed at h
  split at h
  · simp at h
  · rename_i frame rest top
    obtain ⟨call, arrival, stage⟩ := frame
    cases stage with
    | entering =>
      obtain rfl := Option.some.inj h
      cases call <;> simp [World.enter]
    | waiting ticket parked =>
      cases parked with
      | true => simp at h
      | false =>
        obtain rfl := Option.some.inj h
        simp
    | pumping reply consumer last =>
      obtain rfl := Option.some.inj h
      unfold World.pump
      split <;> simp
    | accepting => simp at h
    | leaving reply =>
      obtain rfl := Option.some.inj h
      simp

theorem plainStep_of_step {thread : τ} {move : Move ι}
    (allowed : world.allows behaves thread move = true) (step : world.step thread move = some next) :
    PlainStep behaves world next thread := by
  have transition := transition_of_step step
  cases move with
  | call call =>
    have free : world.frames thread = [] := List.isEmpty_iff.mp allowed
    have made : next.history = world.history ++ [.called thread call] := by
      simp only [World.step, World.mayCall, free, if_true, Option.some.injEq] at step
      rw [← step]
    refine ⟨transition, fun _ => free, ?_⟩
    intro number ending ends
    simp [made] at ends
  | proceed =>
    have silent := history_of_proceed step
    exact ⟨transition, fun begins => absurd begins (silent.1 _),
      fun ends => absurd ends (silent.2 _ _)⟩
  | finish ending =>
    simp only [World.step, World.finish] at step
    split at step
    · rename_i call arrival reply number consumer payload rest top
      obtain rfl := Option.some.inj step
      refine ⟨transition, fun begins => by simp at begins, ?_⟩
      intro other last ends
      simp only [List.append_cancel_left_eq, List.cons.injEq, Occurrence.ended.injEq, true_and,
        and_true] at ends
      obtain ⟨rfl, rfl⟩ := ends
      refine ⟨call, arrival, reply, consumer, payload, rest, top, ?_⟩
      simpa [World.allows, top] using allowed
    · simp at step

/-- What holds at the start and survives every allowed step holds along every allowed run. -/
theorem runPlain_induction {motive : World ι τ → Prop} {last : World ι τ}
    {schedule : List (τ × Move ι)} (ran : world.runPlain behaves schedule = some last)
    (start : motive world)
    (step : ∀ {world next : World ι τ} {thread : τ}, motive world →
      PlainStep behaves world next thread → motive next) : motive last := by
  induction schedule generalizing world with
  | nil => exact Option.some.inj ran ▸ start
  | cons first rest ih =>
    simp only [World.runPlain] at ran
    split at ran
    · rename_i allowed
      obtain ⟨next, moved, ran⟩ := Option.bind_eq_some_iff.mp ran
      exact ih ran (step start (plainStep_of_step allowed moved))
    · simp at ran

end Runs

def Honest (behaves : ι → Payload → Ending) (history : List (Occurrence ι τ)) : Prop :=
  ∀ number ending, (number, ending) ∈ endings history → ∃ consumer payload,
    (invocations history)[number]? = some (consumer, payload) ∧ ending = behaves consumer payload

structure Plain (behaves : ι → Payload → Ending) (world : World ι τ) : Prop where
  coherent : Coherent world
  attended : Attended world
  alone : ∀ thread, (world.frames thread).length ≤ 1
  honest : Honest behaves world.history

theorem plain_start (behaves : ι → Payload → Ending) (label : String) :
    Plain behaves (World.start label : World ι τ) where
  coherent := coherent_start label
  attended := attended_of_awaiting rfl
  alone _ := Nat.zero_le 1
  honest _ _ mem := by simp [World.start] at mem

section Steps

variable [DecidableEq τ] {behaves : ι → Payload → Ending} {world next : World ι τ} {thread : τ}

theorem alone_of_own (last : Option Ending) {stack : List (Frame ι)}
    (alone : ∀ other, (world.frames other).length ≤ 1)
    (frames : next.frames = Function.update (world.notified last) thread stack)
    (own : stack.length ≤ 1) : ∀ other, (next.frames other).length ≤ 1 := by
  refine calls_of_own (motive := fun _ stack => stack.length ≤ 1) last frames own ?_
  intro other _
  cases last with
  | none => exact alone other
  | some ending => simpa [World.notified] using alone other

theorem alone_step (alone : ∀ other, (world.frames other).length ≤ 1)
    (step : PlainStep behaves world next thread) : ∀ other, (next.frames other).length ≤ 1 := by
  have before := alone thread
  obtain ⟨transition, begins, _⟩ := step
  cases transition with
  | called call free =>
    refine alone_of_own none alone rfl ?_
    simp [begins rfl]
  | buffered top | claimed top | joined top | installed top | kept top | rejected top | looked top
  | ended _ top =>
    rw [top] at before
    exact alone_of_own none alone rfl before
  | handedOver top | drained top | detached top =>
    rw [top] at before
    exact alone_of_own _ alone rfl before
  | returned top =>
    rw [top] at before
    exact alone_of_own none alone rfl (Nat.le_of_succ_le before)

omit [DecidableEq τ] in
theorem Honest.later {earlier later : List (Occurrence ι τ)} (honest : Honest behaves earlier)
    (past : endings later = endings earlier) (calls : invocations earlier <+: invocations later) :
    Honest behaves later := by
  intro number ending mem
  obtain ⟨consumer, payload, found, ends⟩ := honest number ending (past ▸ mem)
  obtain ⟨bound, same⟩ := List.getElem?_eq_some_iff.mp found
  exact ⟨consumer, payload, same ▸ List.prefix_iff_getElem?.mp calls number bound, ends⟩

omit [DecidableEq τ] in
/-- The consumer that a thread is inside of is the one that the last hand-over called. -/
theorem invocation_of_accepting (all : Coherent world) (attended : Attended world) {call : Call ι}
    {arrival number : Nat} {reply : Reply} {consumer : ι} {payload : Payload} {rest : List (Frame ι)}
    (top : world.frames thread = ⟨call, arrival, .accepting reply number consumer payload⟩ :: rest) :
    (invocations world.history)[number]? = some (consumer, payload) := by
  have mem : ⟨call, arrival, .accepting reply number consumer payload⟩ ∈ world.frames thread :=
    top ▸ List.mem_cons_self
  obtain ⟨_, _, rfl, current⟩ := all.ledger.busy thread _ mem
  have named := all.shaped.deliverer_of_drains mem rfl
  cases phase : world.registry.phase with
  | awaiting pending => simp [Registry.deliverer?, phase] at named
  | attached delivery =>
    obtain rfl := attended.serves phase thread _ mem consumer rfl
    rw [attended.invoked phase, List.getElem?_map, current]
    rfl

theorem honest_step (plain : Plain behaves world) (step : PlainStep behaves world next thread) :
    Honest behaves next.history := by
  have honest := plain.honest
  obtain ⟨transition, _, ends⟩ := step
  cases transition with
  | looked | drained | detached => exact honest
  | ended ending =>
    obtain ⟨_, _, _, consumer, payload, _, top, rfl⟩ := ends rfl
    intro number last mem
    simp only [endings_append, List.mem_append, invocations_concat, Occurrence.invocation?,
      Option.toList_none, List.append_nil] at mem ⊢
    rcases mem with old | fresh
    · exact honest number last old
    · simp only [endings_cons, Occurrence.ending?, Option.toList_some, endings_nil, List.append_nil,
        List.mem_singleton, Prod.mk.injEq] at fresh
      obtain ⟨rfl, rfl⟩ := fresh
      exact ⟨consumer, payload,
        invocation_of_accepting plain.coherent plain.attended top, rfl⟩
  | called | buffered | claimed | joined | installed | kept | rejected | handedOver | returned =>
    refine honest.later (by simp) ?_
    simp

theorem plain_step (plain : Plain behaves world) (step : PlainStep behaves world next thread) :
    Plain behaves next where
  coherent := coherent_step plain.coherent step.transition
  attended := attended_step plain.coherent plain.attended step.transition
  alone := alone_step plain.alone step
  honest := honest_step plain step

omit [DecidableEq τ] in
/-- The end that a delivering call is about to count is that of the first payload not counted. -/
theorem Plain.ending_eq (plain : Plain behaves world) {delivery : Delivery ι τ} {call : Call ι}
    {arrival : Nat} {reply : Reply} {consumer : ι} {ending : Ending} {rest : List (Frame ι)}
    (phase : world.registry.phase = .attached delivery)
    (top : world.frames thread = ⟨call, arrival, .pumping reply consumer (some ending)⟩ :: rest) :
    ∃ sent, (arrivals world.history)[delivery.completed]? = some sent ∧
      ending = behaves delivery.consumer sent.2 := by
  obtain ⟨gone, _, latest⟩ :=
    plain.coherent.ledger.busy thread ⟨call, arrival, .pumping reply consumer (some ending)⟩
      (top ▸ List.mem_cons_self)
  rw [← (plain.coherent.ledger.attached phase).2.1] at gone latest
  obtain ⟨own, payload, called, rfl⟩ :=
    plain.honest delivery.completed ending (List.mem_of_getElem? latest)
  rw [plain.attended.invoked phase, List.getElem?_map] at called
  obtain ⟨first, handed, same⟩ := Option.map_eq_some_iff.mp called
  obtain ⟨rfl, rfl⟩ := Prod.mk.inj same
  have size := plain.coherent.handed_isPrefix.length_le
  rw [List.length_map] at size
  obtain ⟨sent, arrived⟩ : ∃ sent, (arrivals world.history)[delivery.completed]? = some sent :=
    ⟨_, List.getElem?_eq_getElem (by omega)⟩
  exact ⟨sent, arrived, by rw [plain.coherent.payload_of_handed arrived handed]⟩

end Steps

end ImplementorIndex.Threads
