import ImplementorIndex.Proofs.Threads.Transition

/-!
# Who delivers, and how far the delivery is

Two invariants of every run. The calls of a thread never nest deeper than one call made from inside
the consumer, and a thread has a delivering call exactly when the registry names it as the deliverer.
The books balance: what arrived is what was handed over followed by what is queued, and the counters
lag behind the hand-overs by at most the one that is under way.
-/

namespace ImplementorIndex.Threads

variable {ι τ : Type}

/-- The calls under way on one thread, the innermost first, of a thread that delivers or does not. -/
inductive Shape (delivers : Prop) : List (Frame ι) → Prop where
  | idle (not : ¬ delivers) : Shape delivers []
  | calling {frame : Frame ι} (not : ¬ delivers) (passive : frame.stage.drains = false) :
    Shape delivers [frame]
  | delivering {frame : Frame ι} (yes : delivers) (active : frame.stage.drains = true) :
    Shape delivers [frame]
  | nested {frame below : Frame ι} (yes : delivers) (passive : frame.stage.drains = false)
    (inside : below.stage.isAccepting = true) : Shape delivers [frame, below]

namespace Shape

variable {delivers : Prop} {frame : Frame ι} {stack rest : List (Frame ι)}

theorem congr {other : Prop} (same : other ↔ delivers) (h : Shape delivers stack) :
    Shape other stack := by
  rwa [propext same]

theorem of_drains (h : Shape delivers (frame :: rest)) (active : frame.stage.drains = true) :
    delivers ∧ rest = [] := by
  cases h with
  | calling _ passive => simp [passive] at active
  | delivering yes _ => exact ⟨yes, rfl⟩
  | nested _ passive _ => simp [passive] at active

theorem of_passive (h : Shape delivers (frame :: rest)) (passive : frame.stage.drains = false) :
    (¬ delivers ∧ rest = []) ∨ (delivers ∧ ∃ below, rest = [below] ∧ below.stage.isAccepting = true) := by
  cases h with
  | calling not _ => exact .inl ⟨not, rfl⟩
  | delivering _ active => simp [passive] at active
  | nested yes _ inside => exact .inr ⟨yes, _, rfl, inside⟩

/-- A passive call may become another passive call. -/
theorem replace {new : Frame ι} (h : Shape delivers (frame :: rest)) (passive : frame.stage.drains = false)
    (still : new.stage.drains = false) : Shape delivers (new :: rest) := by
  rcases h.of_passive passive with ⟨not, rfl⟩ | ⟨yes, below, rfl, inside⟩
  · exact .calling not still
  · exact .nested yes still inside

theorem pop (h : Shape delivers (frame :: rest)) (passive : frame.stage.drains = false) :
    Shape delivers rest := by
  rcases h.of_passive passive with ⟨not, rfl⟩ | ⟨yes, below, rfl, inside⟩
  · exact .idle not
  · exact .delivering yes (Stage.drains_of_isAccepting inside)

theorem passive_of_not (h : Shape delivers stack) (not : ¬ delivers) :
    ∀ member ∈ stack, member.stage.drains = false := by
  intro member hm
  cases h with
  | idle => simp at hm
  | calling _ passive => rwa [List.mem_singleton.mp hm]
  | delivering yes => exact absurd yes not
  | nested yes => exact absurd yes not

theorem map_wake (h : Shape delivers stack) : Shape delivers (stack.map Frame.wake) := by
  cases h with
  | idle not => exact .idle not
  | calling not passive => exact .calling not ((Stage.drains_wake _).trans passive)
  | delivering yes active => exact .delivering yes ((Stage.drains_wake _).trans active)
  | nested yes passive inside =>
    exact .nested yes ((Stage.drains_wake _).trans passive) ((Stage.isAccepting_wake _).trans inside)

end Shape

/-- Every thread's calls have the shape that its part in the delivery calls for. -/
def WellShaped (world : World ι τ) : Prop :=
  ∀ thread, Shape (world.registry.deliverer? = some thread) (world.frames thread)

theorem wellShaped_start (label : String) : WellShaped (World.start label : World ι τ) := by
  intro thread
  exact .idle (by simp [World.start, Registry.deliverer?])

theorem Shape.notified {world : World ι τ} {delivers : Prop} {thread : τ} (last : Option Ending)
    (h : Shape delivers (world.frames thread)) : Shape delivers (world.notified last thread) := by
  cases last with
  | none => exact h
  | some ending => exact h.map_wake

section Transitions

variable [DecidableEq τ] {world next : World ι τ} {thread : τ}

omit [DecidableEq τ] in
/-- Only the deliverer has a delivering call. -/
theorem WellShaped.passive_elsewhere (shaped : WellShaped world) {frame : Frame ι}
    {rest : List (Frame ι)} (top : world.frames thread = frame :: rest)
    (active : frame.stage.drains = true) {other : τ} (ne : other ≠ thread) :
    ∀ member ∈ world.frames other, member.stage.drains = false := by
  have yes := ((top ▸ shaped thread).of_drains active).1
  refine (shaped other).passive_of_not ?_
  intro h
  exact ne (Option.some.inj (h.symm.trans yes))

/-- A step changes the calls of its own thread only, apart from waking those who are parked. -/
theorem calls_of_own (last : Option Ending) {stack : List (Frame ι)}
    {motive : τ → List (Frame ι) → Prop}
    (frames : next.frames = Function.update (world.notified last) thread stack)
    (own : motive thread stack)
    (others : ∀ other, other ≠ thread → motive other (world.notified last other)) :
    ∀ other, motive other (next.frames other) := by
  intro other
  by_cases same : other = thread
  · subst same
    rwa [frames, Function.update_self]
  · rw [frames, Function.update_of_ne same]
    exact others other same

theorem frames_of_own (last : Option Ending) {stack : List (Frame ι)} {holds : τ → Frame ι → Prop}
    (frames : next.frames = Function.update (world.notified last) thread stack)
    (wake : ∀ {other frame}, holds other frame → holds other frame.wake)
    (own : ∀ frame ∈ stack, holds thread frame)
    (others : ∀ other, other ≠ thread → ∀ frame ∈ world.frames other, holds other frame) :
    ∀ other, ∀ frame ∈ next.frames other, holds other frame := by
  apply calls_of_own (motive := fun other stack => ∀ frame ∈ stack, holds other frame) last frames own
  intro other ne frame hm
  cases last with
  | none => exact others other ne frame hm
  | some ending =>
    obtain ⟨old, ho, rfl⟩ := List.mem_map.mp hm
    exact wake (others other ne old ho)

theorem wellShaped_of_own (last : Option Ending) {stack : List (Frame ι)}
    (shaped : WellShaped world)
    (frames : next.frames = Function.update (world.notified last) thread stack)
    (others : ∀ other, other ≠ thread →
      (next.registry.deliverer? = some other ↔ world.registry.deliverer? = some other))
    (own : Shape (next.registry.deliverer? = some thread) stack) : WellShaped next := by
  apply calls_of_own (motive := fun other => Shape (next.registry.deliverer? = some other)) last frames
    own
  intro other ne
  exact ((shaped other).notified last).congr (others other ne)

omit [DecidableEq τ] in
theorem drains_waitStage (registry : Registry ι τ) (ticket : Nat) :
    (waitStage registry ticket).drains = false := by
  unfold waitStage
  split <;> rfl

theorem wellShaped_step (shaped : WellShaped world) (h : Transition world thread next) :
    WellShaped next := by
  have own := shaped thread
  cases h with
  | called call free =>
    refine wellShaped_of_own none shaped rfl (fun _ _ => Iff.rfl) ?_
    unfold World.mayCall at free
    generalize world.frames thread = stack at own free
    cases own with
    | idle not => exact .calling not rfl
    | calling not passive =>
      have active := Stage.drains_of_isAccepting free
      simp [passive] at active
    | delivering yes active => exact .nested yes rfl free
    | nested yes passive inside =>
      have active := Stage.drains_of_isAccepting free
      simp [passive] at active
  | buffered top phase =>
    rw [top] at own
    refine wellShaped_of_own none shaped rfl ?_ ((own.replace rfl rfl).congr ?_)
    · simp [Registry.deliverer?, phase]
    · simp [Registry.deliverer?, phase]
  | claimed top phase idle =>
    rw [top] at own
    refine wellShaped_of_own none shaped rfl ?_ ?_
    · intro other ne
      simp [Registry.deliverer?, phase, idle, Ne.symm ne]
    · rcases own.of_passive rfl with ⟨_, rfl⟩ | ⟨yes, _⟩
      · exact .delivering rfl rfl
      · simp [Registry.deliverer?, phase, idle] at yes
  | joined top phase busy outcome =>
    rw [top] at own
    refine wellShaped_of_own none shaped rfl ?_ ((own.replace rfl ?_).congr ?_)
    · simp [Registry.deliverer?, phase, busy]
    · rcases outcome with ⟨_, _, rfl⟩ | ⟨_, _, ⟨_, rfl⟩ | ⟨_, rfl⟩⟩ <;> rfl
    · simp [Registry.deliverer?, phase, busy]
  | installed top phase =>
    rw [top] at own
    refine wellShaped_of_own none shaped rfl ?_ ?_
    · intro other ne
      simp [Registry.deliverer?, phase, Ne.symm ne]
    · rcases own.of_passive rfl with ⟨_, rfl⟩ | ⟨yes, _⟩
      · exact .delivering rfl rfl
      · simp [Registry.deliverer?, phase] at yes
  | kept top phase same =>
    rw [top] at own
    exact wellShaped_of_own none shaped rfl (fun _ _ => Iff.rfl) (own.replace rfl rfl)
  | rejected top phase other =>
    rw [top] at own
    exact wellShaped_of_own none shaped rfl (fun _ _ => Iff.rfl) (own.replace rfl rfl)
  | looked top =>
    rw [top] at own
    exact wellShaped_of_own none shaped rfl (fun _ _ => Iff.rfl)
      (own.replace rfl (drains_waitStage _ _))
  | handedOver top phase queue =>
    rw [top] at own
    obtain ⟨yes, rfl⟩ := own.of_drains rfl
    simp only [Registry.deliverer?, phase] at yes
    refine wellShaped_of_own _ shaped rfl ?_ (.delivering ?_ rfl)
    · simp [Registry.deliverer?, phase]
    · simpa [Registry.deliverer?] using yes
  | drained top phase empty =>
    rw [top] at own
    obtain ⟨yes, rfl⟩ := own.of_drains rfl
    simp only [Registry.deliverer?, phase] at yes
    refine wellShaped_of_own _ shaped rfl ?_ (.calling ?_ rfl)
    · intro other ne
      simp [Registry.deliverer?, phase, yes, Ne.symm ne]
    · simp [Registry.deliverer?]
  | detached top phase =>
    rw [top] at own
    have yes := (own.of_drains rfl).1
    simp [Registry.deliverer?, phase] at yes
  | ended ending top =>
    rw [top] at own
    obtain ⟨yes, rfl⟩ := own.of_drains rfl
    exact wellShaped_of_own none shaped rfl (fun _ _ => Iff.rfl) (.delivering yes rfl)
  | returned top =>
    rw [top] at own
    exact wellShaped_of_own none shaped rfl (fun _ _ => Iff.rfl) (own.pop rfl)

end Transitions

/-- How the hand-overs, the ends of consumer calls and the number of those counted stand to each other,
seen from a delivering call. -/
def Progress (handed : List Payload) (endings : List (Nat × Ending)) (settled : Nat) :
    Stage ι → Prop
  | .pumping _ _ none => handed.length = settled ∧ endings.length = settled
  | .pumping _ _ (some ending) => handed.length = settled + 1 ∧ endings.length = settled + 1 ∧
      endings[settled]? = some (settled, ending)
  | .accepting _ number _ payload => handed.length = settled + 1 ∧ endings.length = settled ∧
      number = settled ∧ handed[settled]? = some payload
  | _ => True

theorem progress_of_passive {handed : List Payload} {endings : List (Nat × Ending)} {settled : Nat}
    {stage : Stage ι} (passive : stage.drains = false) : Progress handed endings settled stage := by
  cases stage <;> trivial

theorem progress_wake {handed : List Payload} {endings : List (Nat × Ending)} {settled : Nat}
    {stage : Stage ι} (h : Progress handed endings settled stage) :
    Progress handed endings settled stage.wake := by
  cases stage <;> exact h

/-- The books of a registry and its consumer. -/
structure Ledger (world : World ι τ) : Prop where
  conserved : (arrivals world.history).map Prod.snd = handed world.history ++ world.registry.queue
  awaiting : ∀ {pending}, world.registry.phase = .awaiting pending →
    world.registry.counters.settled = 0 ∧
    world.registry.counters.buffered = (arrivals world.history).length
  attached : ∀ {delivery}, world.registry.phase = .attached delivery →
    delivery.enqueued = (arrivals world.history).length ∧
    delivery.completed = world.registry.counters.settled ∧
    (delivery.deliverer = none → delivery.inflight = [])
  quiet : world.registry.deliverer? = none →
    (handed world.history).length = world.registry.counters.settled ∧
    (endings world.history).length = world.registry.counters.settled
  busy : ∀ thread, ∀ frame ∈ world.frames thread,
    Progress (handed world.history) (endings world.history) world.registry.counters.settled frame.stage
  numbered : (endings world.history).map Prod.fst = List.range (endings world.history).length
  tallied : world.registry.counters.delivered =
    ((endings world.history).take world.registry.counters.settled).countP fun e => e.2 = .returned

theorem ledger_start (label : String) : Ledger (World.start label : World ι τ) where
  conserved := rfl
  awaiting _ := ⟨rfl, rfl⟩
  attached h := by simp [World.start] at h
  quiet _ := ⟨rfl, rfl⟩
  busy thread frame h := by simp [World.start] at h
  numbered := rfl
  tallied := rfl

/-- While there is no consumer, all that arrived is pending. -/
theorem Ledger.pending {world : World ι τ} (ledger : Ledger world) {pending : List Payload}
    (phase : world.registry.phase = .awaiting pending) :
    handed world.history = [] ∧ (arrivals world.history).map Prod.snd = pending := by
  have settled := (ledger.awaiting phase).1
  have quiet := (ledger.quiet (by simp [Registry.deliverer?, phase])).1
  have none : handed world.history = [] := List.length_eq_zero_iff.mp (quiet.trans settled)
  refine ⟨none, ?_⟩
  simpa [none, Registry.queue, phase] using ledger.conserved

theorem Shape.exists_drains {delivers : Prop} {stack : List (Frame ι)} (h : Shape delivers stack)
    (yes : delivers) : ∃ frame ∈ stack, frame.stage.drains = true := by
  cases h with
  | idle not => exact absurd yes not
  | calling not => exact absurd yes not
  | delivering _ active => exact ⟨_, List.mem_cons_self, active⟩
  | nested _ _ inside =>
    exact ⟨_, List.mem_cons_of_mem _ List.mem_cons_self, Stage.drains_of_isAccepting inside⟩

theorem progress_bounds {handed : List Payload} {endings : List (Nat × Ending)} {settled : Nat}
    {stage : Stage ι} (h : Progress handed endings settled stage) (active : stage.drains = true) :
    settled ≤ endings.length ∧ endings.length ≤ handed.length := by
  cases stage with
  | pumping reply consumer last =>
    cases last with
    | none =>
      obtain ⟨gone, past⟩ := h
      omega
    | some ending =>
      obtain ⟨gone, past, _⟩ := h
      omega
  | accepting reply number consumer payload =>
    obtain ⟨gone, past, _⟩ := h
    omega
  | _ => simp [Stage.drains] at active

/-- Only ended calls are counted, and only what was handed over ends. -/
theorem Ledger.bounds {world : World ι τ} (shaped : WellShaped world) (ledger : Ledger world) :
    world.registry.counters.settled ≤ (endings world.history).length ∧
      (endings world.history).length ≤ (handed world.history).length := by
  cases busy : world.registry.deliverer? with
  | none =>
    obtain ⟨gone, past⟩ := ledger.quiet busy
    omega
  | some thread =>
    obtain ⟨frame, hm, active⟩ := (shaped thread).exists_drains busy
    exact progress_bounds (ledger.busy thread frame hm) active

section Transitions

variable [DecidableEq τ] {world next : World ι τ} {thread : τ}

omit [DecidableEq τ] in
/-- Steps in which nothing is handed over and nothing is counted. -/
theorem Ledger.of_uncounted (ledger : Ledger world)
    (counted : next.registry.counters.delivered = world.registry.counters.delivered ∧
      next.registry.counters.panicked = world.registry.counters.panicked)
    (gone : handed next.history = handed world.history)
    (past : endings next.history = endings world.history)
    (conserved : (arrivals next.history).map Prod.snd = handed world.history ++ next.registry.queue)
    (awaiting : ∀ {pending}, next.registry.phase = .awaiting pending →
      world.registry.counters.settled = 0 ∧
      next.registry.counters.buffered = (arrivals next.history).length)
    (attached : ∀ {delivery}, next.registry.phase = .attached delivery →
      delivery.enqueued = (arrivals next.history).length ∧
      delivery.completed = world.registry.counters.settled ∧
      (delivery.deliverer = none → delivery.inflight = []))
    (quiet : next.registry.deliverer? = none → world.registry.deliverer? = none)
    (busy : ∀ thread, ∀ frame ∈ next.frames thread, Progress (handed world.history)
      (endings world.history) world.registry.counters.settled frame.stage) : Ledger next := by
  have settled : next.registry.counters.settled = world.registry.counters.settled := by
    simp only [Counters.settled, counted]
  refine ⟨?_, ?_, ?_, ?_, ?_, ?_, ?_⟩
  · rw [gone, conserved]
  · rw [settled]
    exact awaiting
  · rw [settled]
    exact attached
  · rw [settled, gone, past]
    exact fun idle => ledger.quiet (quiet idle)
  · rw [settled, gone, past]
    exact busy
  · rw [past]
    exact ledger.numbered
  · rw [settled, past, counted.1]
    exact ledger.tallied

omit [DecidableEq τ] in
/-- Steps that leave phase, payloads and counters alone. -/
theorem Ledger.of_same (ledger : Ledger world)
    (phase : next.registry.phase = world.registry.phase)
    (counted : next.registry.counters.delivered = world.registry.counters.delivered ∧
      next.registry.counters.panicked = world.registry.counters.panicked)
    (buffered : next.registry.counters.buffered = world.registry.counters.buffered)
    (arrived : arrivals next.history = arrivals world.history)
    (gone : handed next.history = handed world.history)
    (past : endings next.history = endings world.history)
    (busy : ∀ thread, ∀ frame ∈ next.frames thread, Progress (handed world.history)
      (endings world.history) world.registry.counters.settled frame.stage) : Ledger next := by
  refine ledger.of_uncounted counted gone past ?_ ?_ ?_ ?_ busy
  · rw [arrived, ledger.conserved]
    simp only [Registry.queue, phase]
  · rw [phase, buffered, arrived]
    exact ledger.awaiting
  · rw [phase, arrived]
    exact ledger.attached
  · simp only [Registry.deliverer?, phase, imp_self]

omit [DecidableEq τ] in
theorem Ledger.busy_replace (ledger : Ledger world) {old new : Frame ι} {rest : List (Frame ι)}
    (top : world.frames thread = old :: rest)
    (fresh : Progress (handed world.history) (endings world.history)
      world.registry.counters.settled new.stage) :
    ∀ frame ∈ new :: rest, Progress (handed world.history) (endings world.history)
      world.registry.counters.settled frame.stage := by
  intro frame hm
  rcases List.mem_cons.mp hm with rfl | hm
  · exact fresh
  · exact ledger.busy thread frame (top ▸ List.mem_cons_of_mem _ hm)

omit [DecidableEq τ] in
/-- When a delivering call has counted the end of its last hand-over, nothing is left uncounted. -/
theorem Ledger.settle (ledger : Ledger world) {call : Call ι} {arrival : Nat} {reply : Reply}
    {consumer : ι} {last : Option Ending} {rest : List (Frame ι)}
    (top : world.frames thread = ⟨call, arrival, .pumping reply consumer last⟩ :: rest) :
    (handed world.history).length = (world.registry.counters.settle last).settled ∧
    (endings world.history).length = (world.registry.counters.settle last).settled ∧
    (world.registry.counters.settle last).delivered = ((endings world.history).take
      (world.registry.counters.settle last).settled).countP fun e => e.2 = .returned := by
  have now := ledger.busy thread ⟨call, arrival, .pumping reply consumer last⟩ (by simp [top])
  have tallied := ledger.tallied
  cases last with
  | none => exact ⟨now.1, now.2, tallied⟩
  | some ending =>
    obtain ⟨gone, past, latest⟩ := now
    rw [Counters.settled_settle]
    refine ⟨gone, past, ?_⟩
    rw [Counters.ends, List.take_add_one, latest, List.countP_append, ← tallied]
    cases ending <;> simp [Counters.settle, Counters.count]

theorem ledger_step (shaped : WellShaped world) (ledger : Ledger world)
    (h : Transition world thread next) : Ledger next := by
  have own := shaped thread
  have elsewhere : ∀ other, other ≠ thread → ∀ frame ∈ world.frames other, Progress
      (handed world.history) (endings world.history) world.registry.counters.settled frame.stage :=
    fun other _ => ledger.busy other
  cases h with
  | called call free =>
    refine ledger.of_same rfl ⟨rfl, rfl⟩ rfl (by simp) (by simp) (by simp) ?_
    refine frames_of_own none rfl progress_wake ?_ elsewhere
    intro frame hm
    rcases List.mem_cons.mp hm with rfl | hm
    · trivial
    · exact ledger.busy thread frame hm
  | buffered top phase =>
    obtain ⟨settled, buffered⟩ := ledger.awaiting phase
    refine ledger.of_uncounted ⟨rfl, rfl⟩ (by simp) (by simp) ?_ ?_ ?_ ?_ ?_
    · simp [ledger.conserved, Registry.queue, phase]
    · intro _ _
      exact ⟨settled, by simp [buffered]⟩
    · intro _ hp
      simp at hp
    · simp [Registry.deliverer?, phase]
    · exact frames_of_own none rfl progress_wake (ledger.busy_replace top trivial) elsewhere
  | claimed top phase idle =>
    obtain ⟨enqueued, completed, _⟩ := ledger.attached phase
    refine ledger.of_uncounted ⟨rfl, rfl⟩ (by simp) (by simp) ?_ ?_ ?_ ?_ ?_
    · simp [ledger.conserved, Registry.queue, phase]
    · intro _ hp
      simp at hp
    · intro _ hp
      obtain rfl := Phase.attached.inj hp
      exact ⟨by simp [enqueued], completed, by simp⟩
    · simp [Registry.deliverer?]
    · refine frames_of_own none rfl progress_wake (ledger.busy_replace top ?_) elsewhere
      exact ledger.quiet (by simp [Registry.deliverer?, phase, idle])
  | joined top phase busy outcome =>
    obtain ⟨enqueued, completed, _⟩ := ledger.attached phase
    refine ledger.of_uncounted ⟨rfl, rfl⟩ (by simp) (by simp) ?_ ?_ ?_ ?_ ?_
    · simp [ledger.conserved, Registry.queue, phase]
    · intro _ hp
      simp at hp
    · intro _ hp
      obtain rfl := Phase.attached.inj hp
      exact ⟨by simp [enqueued], completed, by simp [busy]⟩
    · simp [Registry.deliverer?, busy]
    · refine frames_of_own none rfl progress_wake (ledger.busy_replace top ?_) elsewhere
      rcases outcome with ⟨_, _, rfl⟩ | ⟨_, _, ⟨_, rfl⟩ | ⟨_, rfl⟩⟩ <;> trivial
  | installed top phase =>
    obtain ⟨settled, _⟩ := ledger.awaiting phase
    have figures := ledger.quiet (by simp [Registry.deliverer?, phase])
    have pending := (ledger.pending phase).2
    refine ledger.of_uncounted ⟨rfl, rfl⟩ (by simp) (by simp) ?_ ?_ ?_ ?_ ?_
    · simp [ledger.conserved, Registry.queue, phase]
    · intro _ hp
      simp at hp
    · intro _ hp
      obtain rfl := Phase.attached.inj hp
      exact ⟨by simp [← pending], settled.symm, by simp⟩
    · simp [Registry.deliverer?]
    · exact frames_of_own none rfl progress_wake (ledger.busy_replace top figures) elsewhere
  | kept top phase same =>
    refine ledger.of_same rfl ⟨rfl, rfl⟩ rfl (by simp) (by simp) (by simp) ?_
    exact frames_of_own none rfl progress_wake (ledger.busy_replace top trivial) elsewhere
  | rejected top phase other =>
    refine ledger.of_same rfl ⟨rfl, rfl⟩ rfl (by simp) (by simp) (by simp) ?_
    exact frames_of_own none rfl progress_wake (ledger.busy_replace top trivial) elsewhere
  | looked top =>
    refine ledger.of_same rfl ⟨rfl, rfl⟩ rfl rfl rfl rfl ?_
    exact frames_of_own none rfl progress_wake
      (ledger.busy_replace top (progress_of_passive (drains_waitStage _ _))) elsewhere
  | returned top =>
    refine ledger.of_same rfl ⟨rfl, rfl⟩ rfl (by simp) (by simp) (by simp) ?_
    refine frames_of_own none rfl progress_wake ?_ elsewhere
    intro frame hm
    exact ledger.busy thread frame (top ▸ List.mem_cons_of_mem _ hm)
  | detached top phase =>
    have yes := ((top ▸ own).of_drains rfl).1
    simp [Registry.deliverer?, phase] at yes
  | handedOver top phase queue =>
    obtain ⟨gone, past, tallied⟩ := ledger.settle top
    obtain ⟨enqueued, completed, _⟩ := ledger.attached phase
    obtain ⟨yes, rfl⟩ := (top ▸ own).of_drains rfl
    refine ⟨?_, ?_, ?_, ?_, ?_, ?_, ?_⟩
    · simp [ledger.conserved, Registry.queue, phase, queue]
    · intro _ hp
      simp at hp
    · intro _ hp
      obtain rfl := Phase.attached.inj hp
      simp only [Registry.deliverer?, phase] at yes
      exact ⟨by simp [enqueued], by simp [completed], by simp [yes]⟩
    · intro idle
      simp only [Registry.deliverer?, phase] at yes
      simp [Registry.deliverer?, yes] at idle
    · refine frames_of_own _ rfl progress_wake ?_ ?_
      · intro frame hm
        obtain rfl := List.mem_singleton.mp hm
        simp [Progress, gone, past]
      · intro other ne frame hm
        exact progress_of_passive (shaped.passive_elsewhere top rfl ne frame hm)
    · simpa using ledger.numbered
    · simpa using tallied
  | drained top phase empty =>
    obtain ⟨gone, past, tallied⟩ := ledger.settle top
    obtain ⟨enqueued, completed, _⟩ := ledger.attached phase
    obtain ⟨yes, rfl⟩ := (top ▸ own).of_drains rfl
    refine ⟨?_, ?_, ?_, ?_, ?_, ?_, ?_⟩
    · simp [ledger.conserved, Registry.queue, phase, empty]
    · intro _ hp
      simp at hp
    · intro _ hp
      obtain rfl := Phase.attached.inj hp
      exact ⟨by simp [enqueued], by simp [completed], fun _ => empty⟩
    · intro _
      exact ⟨gone, past⟩
    · refine frames_of_own _ rfl progress_wake ?_ ?_
      · intro frame hm
        obtain rfl := List.mem_singleton.mp hm
        trivial
      · intro other ne frame hm
        exact progress_of_passive (shaped.passive_elsewhere top rfl ne frame hm)
    · exact ledger.numbered
    · exact tallied
  | ended ending top =>
    obtain ⟨gone, past, rfl, current⟩ := ledger.busy thread _ (top ▸ List.mem_cons_self)
    obtain ⟨yes, rfl⟩ := (top ▸ own).of_drains rfl
    refine ⟨?_, ?_, ?_, ?_, ?_, ?_, ?_⟩
    · simpa using ledger.conserved
    · simpa using @ledger.awaiting
    · simpa using @ledger.attached
    · intro idle
      simp [idle] at yes
    · refine frames_of_own none rfl progress_wake ?_ ?_
      · intro frame hm
        obtain rfl := List.mem_singleton.mp hm
        simp [Progress, gone, past]
      · intro other ne frame hm
        exact progress_of_passive (shaped.passive_elsewhere top rfl ne frame hm)
    · simp [ledger.numbered, List.range_succ, past]
    · have whole : (endings world.history).take world.registry.counters.settled =
          endings world.history := List.take_of_length_le (Nat.le_of_eq past)
      simp [ledger.tallied, past, whole]

end Transitions

end ImplementorIndex.Threads
