import ImplementorIndex.Proofs.Threads.Drainer

/-!
# Which consumer is called

The consumer that was attached first is the one that every delivering call holds, so all consumer
calls go to it: the calls made are the hand-overs, each with the attached consumer.
-/

namespace ImplementorIndex.Threads

variable {ι τ : Type}

@[simp] def Occurrence.invocation? : Occurrence ι τ → Option (ι × Payload)
  | handedOver _ consumer payload => some (consumer, payload)
  | _ => none

def invocations (history : List (Occurrence ι τ)) : List (ι × Payload) :=
  history.filterMap Occurrence.invocation?

@[simp] theorem invocations_concat (history : List (Occurrence ι τ)) (latest : Occurrence ι τ) :
    invocations (history ++ [latest]) = invocations history ++ latest.invocation?.toList := by
  cases latest <;> simp [invocations]

theorem map_snd_invocations (history : List (Occurrence ι τ)) :
    (invocations history).map Prod.snd = handed history := by
  rw [invocations, handed, List.map_filterMap]
  congr 1
  funext occurrence
  cases occurrence <;> rfl

def Stage.consumer? : Stage ι → Option ι
  | pumping _ consumer _ => some consumer
  | accepting _ _ consumer _ => some consumer
  | _ => none

theorem Stage.drains_of_consumer? {stage : Stage ι} {consumer : ι}
    (h : stage.consumer? = some consumer) : stage.drains = true := by
  cases stage <;> simp_all [consumer?, drains]

/-- If the call delivers, it delivers to this consumer. -/
def Frame.Serves (frame : Frame ι) (consumer : ι) : Prop :=
  ∀ own, frame.stage.consumer? = some own → own = consumer

theorem Frame.Serves.wake {frame : Frame ι} {consumer : ι} (h : frame.Serves consumer) :
    frame.wake.Serves consumer := by
  obtain ⟨call, arrival, stage⟩ := frame
  cases stage <;> exact h

theorem Frame.serves_of_passive {frame : Frame ι} (passive : frame.stage.drains = false)
    (consumer : ι) : frame.Serves consumer := by
  intro own holds
  simp [Stage.drains_of_consumer? holds] at passive

/-- Every delivering call serves the attached consumer, and every consumer call went to it. -/
structure Attended (world : World ι τ) : Prop where
  serves : ∀ {delivery}, world.registry.phase = .attached delivery →
    ∀ thread, ∀ frame ∈ world.frames thread, frame.Serves delivery.consumer
  invoked : ∀ {delivery}, world.registry.phase = .attached delivery →
    invocations world.history =
      (handed world.history).map fun payload => (delivery.consumer, payload)

theorem attended_of_awaiting {world : World ι τ} {pending : List Payload}
    (phase : world.registry.phase = .awaiting pending) : Attended world where
  serves later := by simp [phase] at later
  invoked later := by simp [phase] at later

section Transitions

variable [DecidableEq τ] {world next : World ι τ} {thread : τ}

/-- Steps of a thread at an attached registry, whose consumer stays. -/
theorem attended_of_own (last : Option Ending) {delivery after : Delivery ι τ}
    {stack : List (Frame ι)} (attended : Attended world)
    (phase : world.registry.phase = .attached delivery)
    (later : next.registry.phase = .attached after) (same : after.consumer = delivery.consumer)
    (frames : next.frames = Function.update (world.notified last) thread stack)
    (own : ∀ frame ∈ stack, frame.Serves delivery.consumer) (made : List Payload)
    (calls : invocations next.history =
      invocations world.history ++ made.map fun payload => (delivery.consumer, payload))
    (gone : handed next.history = handed world.history ++ made) : Attended next := by
  have serves : ∀ other, ∀ frame ∈ next.frames other, frame.Serves delivery.consumer :=
    frames_of_own last frames Frame.Serves.wake own fun other _ => attended.serves phase other
  constructor
  · intro current now
    obtain rfl := Phase.attached.inj (later.symm.trans now)
    rw [same]
    exact serves
  · intro current now
    obtain rfl := Phase.attached.inj (later.symm.trans now)
    rw [same, calls, gone, attended.invoked phase, List.map_append]

/-- Steps that leave the phase alone and make no consumer call. -/
theorem attended_of_same {stack : List (Frame ι)} (attended : Attended world)
    (phase : next.registry.phase = world.registry.phase)
    (frames : next.frames = Function.update world.frames thread stack)
    (own : ∀ consumer, (∀ frame ∈ world.frames thread, frame.Serves consumer) →
      ∀ frame ∈ stack, frame.Serves consumer)
    (calls : invocations next.history = invocations world.history)
    (gone : handed next.history = handed world.history) : Attended next := by
  cases now : world.registry.phase with
  | awaiting pending => exact attended_of_awaiting (phase.trans now)
  | attached delivery =>
    refine attended_of_own none attended now (phase.trans now) rfl frames ?_ [] ?_ ?_
    · exact own delivery.consumer (attended.serves now thread)
    · simpa using calls
    · simpa using gone

omit [DecidableEq τ] in
/-- The innermost call goes on, and the others stay. -/
theorem serves_replace {old new : Frame ι} {rest : List (Frame ι)} {consumer : ι}
    (top : world.frames thread = old :: rest)
    (before : ∀ frame ∈ world.frames thread, frame.Serves consumer) (fresh : new.Serves consumer) :
    ∀ frame ∈ new :: rest, frame.Serves consumer := by
  intro frame mem
  rcases List.mem_cons.mp mem with rfl | mem
  · exact fresh
  · exact before frame (top ▸ List.mem_cons_of_mem _ mem)

/-- The installation: nobody delivered before, so the new consumer is the first to be served and the
first to be called. -/
theorem attended_of_installed {pending : List Payload} {delivery : Delivery ι τ} {frame : Frame ι}
    {rest : List (Frame ι)} (all : Coherent world)
    (phase : world.registry.phase = .awaiting pending)
    (later : next.registry.phase = .attached delivery)
    (frames : next.frames = Function.update world.frames thread (frame :: rest))
    (below : ∀ member ∈ rest, member ∈ world.frames thread)
    (fresh : frame.Serves delivery.consumer)
    (calls : invocations next.history = invocations world.history)
    (gone : handed next.history = handed world.history) : Attended next := by
  have passive : ∀ other, ∀ member ∈ world.frames other, member.Serves delivery.consumer := by
    intro other member mem
    refine Frame.serves_of_passive ((all.shaped other).passive_of_not ?_ member mem) _
    simp [Registry.deliverer?, phase]
  constructor
  · intro current now
    obtain rfl := Phase.attached.inj (later.symm.trans now)
    refine frames_of_own none frames Frame.Serves.wake ?_ fun other _ => passive other
    intro member mem
    rcases List.mem_cons.mp mem with rfl | mem
    · exact fresh
    · exact passive thread member (below member mem)
  · intro current _
    have none : handed world.history = [] := (all.ledger.pending phase).1
    have silent : invocations world.history = [] := by
      rw [← List.map_eq_nil_iff, map_snd_invocations, none]
    rw [calls, gone, silent, none, List.map_nil]

theorem attended_step (all : Coherent world) (attended : Attended world)
    (h : Transition world thread next) : Attended next := by
  cases h with
  | called call free =>
    refine attended_of_same attended rfl rfl ?_ (by simp) (by simp)
    intro consumer before frame mem
    rcases List.mem_cons.mp mem with rfl | mem
    · exact Frame.serves_of_passive rfl consumer
    · exact before frame mem
  | buffered top phase => exact attended_of_awaiting rfl
  | claimed top phase idle =>
    refine attended_of_own none attended phase rfl rfl rfl ?_ [] (by simp) (by simp)
    refine serves_replace top (attended.serves phase thread) ?_
    rintro own ⟨⟩
    rfl
  | joined top phase busy outcome =>
    refine attended_of_own none attended phase rfl rfl rfl ?_ [] (by simp) (by simp)
    refine serves_replace top (attended.serves phase thread) (Frame.serves_of_passive ?_ _)
    rcases outcome with ⟨_, _, rfl⟩ | ⟨_, _, ⟨_, rfl⟩ | ⟨_, rfl⟩⟩ <;> rfl
  | installed top phase =>
    refine attended_of_installed all phase rfl rfl ?_ ?_ (by simp) (by simp)
    · intro member mem
      exact top ▸ List.mem_cons_of_mem _ mem
    · rintro own ⟨⟩
      rfl
  | kept top | rejected top =>
    refine attended_of_same attended rfl rfl ?_ (by simp) (by simp)
    intro consumer before
    exact serves_replace top before (Frame.serves_of_passive rfl consumer)
  | looked top =>
    refine attended_of_same attended rfl rfl ?_ rfl rfl
    intro consumer before
    exact serves_replace top before (Frame.serves_of_passive (drains_waitStage _ _) consumer)
  | @handedOver _ _ _ _ _ _ _ payload _ top phase queue =>
    have served := attended.serves phase thread _ (top ▸ List.mem_cons_self) _ rfl
    refine attended_of_own _ attended phase rfl rfl rfl ?_ [payload] ?_ (by simp)
    · refine serves_replace top (attended.serves phase thread) ?_
      rintro own ⟨⟩
      exact served
    · simp [served]
  | drained top phase empty =>
    refine attended_of_own _ attended phase rfl rfl rfl ?_ [] (by simp) (by simp)
    exact serves_replace top (attended.serves phase thread) (Frame.serves_of_passive rfl _)
  | detached top phase =>
    have yes := ((top ▸ all.shaped thread).of_drains rfl).1
    simp [Registry.deliverer?, phase] at yes
  | ended ending top =>
    refine attended_of_same attended rfl rfl ?_ (by simp) (by simp)
    intro consumer before
    refine serves_replace top before ?_
    rintro own ⟨⟩
    exact before _ (top ▸ List.mem_cons_self) _ rfl
  | returned top =>
    refine attended_of_same attended rfl rfl ?_ (by simp) (by simp)
    intro consumer before frame mem
    exact before frame (top ▸ List.mem_cons_of_mem _ mem)

end Transitions

end ImplementorIndex.Threads
