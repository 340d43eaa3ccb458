import ImplementorIndex.Proofs.Threads.Delivery

/-!
# What callers are told

What a reply says about the past is kept from the moment the call is done, and it stays true: the
history only grows and the counters never go back. Here the invariants about single calls are put
together: what each call under way is entitled to answer, what each call that returned was told, and
where the installation of the consumer cut the arrivals.
-/

namespace ImplementorIndex.Threads

variable {ι τ : Type}

/-- What never goes back in a run. -/
structure Later (world next : World ι τ) : Prop where
  history : world.history <+: next.history
  settled : world.registry.counters.settled ≤ next.registry.counters.settled
  buffered : world.registry.counters.buffered ≤ next.registry.counters.buffered
  attached : world.registry.isAttached = true → next.registry.isAttached = true

theorem later_of_transition [DecidableEq τ] {world next : World ι τ} {thread : τ}
    (h : Transition world thread next) : Later world next := by
  cases h with
  | called => exact ⟨List.prefix_append _ _, Nat.le_refl _, Nat.le_refl _, id⟩
  | buffered top phase =>
    refine ⟨List.prefix_append _ _, Nat.le_refl _, Nat.le_succ _, ?_⟩
    simp [Registry.isAttached, phase]
  | claimed => exact ⟨List.prefix_append _ _, Nat.le_refl _, Nat.le_refl _, fun _ => rfl⟩
  | joined => exact ⟨List.prefix_append _ _, Nat.le_refl _, Nat.le_refl _, fun _ => rfl⟩
  | installed => exact ⟨List.prefix_append _ _, Nat.le_refl _, Nat.le_refl _, fun _ => rfl⟩
  | kept => exact ⟨List.prefix_append _ _, Nat.le_refl _, Nat.le_refl _, id⟩
  | rejected => exact ⟨List.prefix_append _ _, Nat.le_refl _, Nat.le_refl _, id⟩
  | looked => exact ⟨List.prefix_rfl, Nat.le_refl _, Nat.le_refl _, id⟩
  | handedOver =>
    refine ⟨List.prefix_append _ _, ?_, ?_, fun _ => rfl⟩
    · rw [Counters.settled_settle]
      exact Nat.le_add_right _ _
    · exact Nat.le_of_eq (Counters.buffered_settle _ _).symm
  | drained =>
    refine ⟨List.prefix_rfl, ?_, ?_, fun _ => rfl⟩
    · rw [Counters.settled_settle]
      exact Nat.le_add_right _ _
    · exact Nat.le_of_eq (Counters.buffered_settle _ _).symm
  | detached => exact ⟨List.prefix_rfl, Nat.le_refl _, Nat.le_refl _, id⟩
  | ended => exact ⟨List.prefix_append _ _, Nat.le_refl _, Nat.le_refl _, id⟩
  | returned => exact ⟨List.prefix_append _ _, Nat.le_refl _, Nat.le_refl _, id⟩

theorem Later.arrivals_isPrefix {world next : World ι τ} (later : Later world next) :
    arrivals world.history <+: arrivals next.history :=
  later.history.filterMap _

theorem Later.arrived {world next : World ι τ} (later : Later world next) {place : Nat}
    {sent : τ × Payload} (found : (arrivals world.history)[place]? = some sent) :
    (arrivals next.history)[place]? = some sent := by
  obtain ⟨bound, rfl⟩ := List.getElem?_eq_some_iff.mp found
  exact List.prefix_iff_getElem?.mp later.arrivals_isPrefix place bound

/-- What a call that must deliver will answer when the queue is empty. -/
def Pledged (world : World ι τ) (thread : τ) (call : Call ι) (arrival : Nat) (reply : Reply) : Prop :=
  match call, reply with
  | .register payload, .registration .delivered =>
    (arrivals world.history)[arrival]? = some (thread, payload)
  | .install consumer, .installation (.installed flushed) =>
    .offered thread consumer (.installed flushed) ∈ world.history ∧
      flushed ≤ (arrivals world.history).length
  | _, _ => False

def Kept (world : World ι τ) (thread : τ) (call : Call ι) (arrival : Nat) (reply : Reply) : Prop :=
  match call, reply with
  | .register payload, .registration outcome =>
    (arrivals world.history)[arrival]? = some (thread, payload) ∧
      match outcome with
      | .buffered position => position = arrival ∧ arrival < world.registry.counters.buffered
      | .delivered => arrival < world.registry.counters.settled
      | .queued => True
  | .install consumer, .installation (.installed flushed) =>
    .offered thread consumer (.installed flushed) ∈ world.history ∧
      flushed ≤ world.registry.counters.settled
  | .install _, .installation _ => True
  | _, _ => False

def Entitled (world : World ι τ) (thread : τ) (frame : Frame ι) : Prop :=
  match frame.stage with
  | .entering => True
  | .waiting ticket _ => world.registry.isAttached = true ∧ ticket = frame.arrival + 1 ∧
      ∃ payload, frame.call = .register payload ∧
        (arrivals world.history)[frame.arrival]? = some (thread, payload)
  | .pumping reply _ _ => Pledged world thread frame.call frame.arrival reply
  | .accepting reply _ _ _ => Pledged world thread frame.call frame.arrival reply
  | .leaving reply => Kept world thread frame.call frame.arrival reply

section Later

variable {world next : World ι τ} {thread : τ} {call : Call ι} {arrival : Nat} {reply : Reply}

theorem Pledged.later (h : Pledged world thread call arrival reply) (later : Later world next) :
    Pledged next thread call arrival reply := by
  cases call with
  | register payload =>
    rcases reply with (_ | _ | _) | _
    · exact h
    · exact later.arrived h
    · exact h
    · exact h
  | install consumer =>
    rcases reply with _ | (_ | _ | _)
    · exact h
    · exact ⟨later.history.subset h.1, Nat.le_trans h.2 later.arrivals_isPrefix.length_le⟩
    · exact h
    · exact h

theorem Kept.later (h : Kept world thread call arrival reply) (later : Later world next) :
    Kept next thread call arrival reply := by
  cases call with
  | register payload =>
    rcases reply with (_ | _ | _) | _
    · obtain ⟨found, rfl, bound⟩ := h
      exact ⟨later.arrived found, rfl, Nat.lt_of_lt_of_le bound later.buffered⟩
    · exact ⟨later.arrived h.1, Nat.lt_of_lt_of_le h.2 later.settled⟩
    · exact ⟨later.arrived h.1, trivial⟩
    · exact h
  | install consumer =>
    rcases reply with _ | (_ | _ | _)
    · exact h
    · exact ⟨later.history.subset h.1, Nat.le_trans h.2 later.settled⟩
    · trivial
    · trivial

theorem Entitled.later {frame : Frame ι} (h : Entitled world thread frame)
    (later : Later world next) : Entitled next thread frame := by
  obtain ⟨call, arrival, stage⟩ := frame
  cases stage with
  | entering => trivial
  | waiting ticket parked =>
    obtain ⟨attached, ticket, payload, registers, found⟩ := h
    exact ⟨later.attached attached, ticket, payload, registers, later.arrived found⟩
  | pumping reply consumer last => exact Pledged.later h later
  | accepting reply number consumer payload => exact Pledged.later h later
  | leaving reply => exact Kept.later h later

theorem Entitled.wake {frame : Frame ι} (h : Entitled world thread frame) :
    Entitled world thread frame.wake := by
  obtain ⟨call, arrival, stage⟩ := frame
  cases stage <;> exact h

end Later

/-- What holds of the calls of a run, and where the installation cut the arrivals. -/
structure Promises (world : World ι τ) : Prop where
  calls : ∀ thread, ∀ frame ∈ world.frames thread, Entitled world thread frame
  returns : ∀ {thread call arrival reply},
    .returned thread call arrival reply ∈ world.history → Kept world thread call arrival reply
  cut : ∀ {before after thread consumer flushed},
    world.history = before ++ .offered thread consumer (.installed flushed) :: after →
      world.registry.isAttached = true ∧ flushed = world.registry.counters.buffered ∧
      (arrivals before).length = flushed

theorem promises_start (label : String) : Promises (World.start label : World ι τ) where
  calls thread frame h := by simp [World.start] at h
  returns h := by simp [World.start] at h
  cut h := by simp [World.start] at h

section Transitions

variable [DecidableEq τ] {world next : World ι τ} {thread : τ}

omit [DecidableEq τ] in
/-- With everything handed over and counted, a pledge is kept. -/
theorem Pledged.kept {call : Call ι} {arrival : Nat} {reply : Reply}
    (h : Pledged world thread call arrival reply)
    (all : (arrivals world.history).length ≤ world.registry.counters.settled) :
    Kept world thread call arrival reply := by
  cases call with
  | register payload =>
    rcases reply with (_ | _ | _) | _
    · exact h.elim
    · obtain ⟨bound, _⟩ := List.getElem?_eq_some_iff.mp h
      exact ⟨h, Nat.lt_of_lt_of_le bound all⟩
    · exact h.elim
    · exact h.elim
  | install consumer =>
    rcases reply with _ | (_ | _ | _)
    · exact h.elim
    · exact ⟨h.1, Nat.le_trans h.2 all⟩
    · trivial
    · trivial

omit [DecidableEq τ] in
theorem Ledger.settled_of_completedThrough (ledger : Ledger world) {ticket : Nat}
    (attached : world.registry.isAttached = true)
    (done : world.registry.completedThrough ticket = true) :
    ticket ≤ world.registry.counters.settled := by
  cases phase : world.registry.phase with
  | awaiting pending => simp [Registry.isAttached, phase] at attached
  | attached delivery =>
    rw [← (ledger.attached phase).2.1]
    simpa [Registry.completedThrough, phase] using done

theorem entitled_step (shaped : WellShaped world) (ledger : Ledger world) (books : Ledger next)
    (calls : ∀ thread, ∀ frame ∈ world.frames thread, Entitled world thread frame)
    (h : Transition world thread next) :
    ∀ other, ∀ frame ∈ next.frames other, Entitled next other frame := by
  have later := later_of_transition h
  have elsewhere : ∀ other, other ≠ thread → ∀ frame ∈ world.frames other,
      Entitled next other frame := fun other _ frame hm => (calls other frame hm).later later
  have replace : ∀ {old new rest}, world.frames thread = old :: rest → Entitled next thread new →
      ∀ frame ∈ new :: rest, Entitled next thread frame := by
    intro old new rest top fresh frame hm
    rcases List.mem_cons.mp hm with rfl | hm
    · exact fresh
    · exact (calls thread frame (top ▸ List.mem_cons_of_mem _ hm)).later later
  cases h with
  | called call free =>
    refine frames_of_own none rfl Entitled.wake ?_ elsewhere
    intro frame hm
    rcases List.mem_cons.mp hm with rfl | hm
    · trivial
    · exact (calls thread frame hm).later later
  | buffered top phase =>
    refine frames_of_own none rfl Entitled.wake (replace top ⟨?_, ?_, ?_⟩) elsewhere
    · simp
    · simp [← (ledger.pending phase).2]
    · simp [(ledger.awaiting phase).2]
  | claimed top phase idle =>
    refine frames_of_own none rfl Entitled.wake (replace top ?_) elsewhere
    simp [Entitled, Pledged]
  | joined top phase busy outcome =>
    obtain ⟨enqueued, completed, _⟩ := ledger.attached phase
    refine frames_of_own none rfl Entitled.wake (replace top ?_) elsewhere
    rcases outcome with ⟨_, _, rfl⟩ | ⟨_, _, ⟨done, rfl⟩ | ⟨_, rfl⟩⟩
    · simp [Entitled, Kept]
    · refine ⟨by simp, ?_⟩
      rw [enqueued, completed] at done
      exact done
    · exact ⟨rfl, congrArg (· + 1) enqueued, _, rfl, by simp⟩
  | installed top phase =>
    refine frames_of_own none rfl Entitled.wake (replace top ⟨?_, ?_⟩) elsewhere
    · simp
    · simp [← (ledger.pending phase).2]
  | kept top phase same =>
    exact frames_of_own none rfl Entitled.wake (replace top trivial) elsewhere
  | rejected top phase other =>
    exact frames_of_own none rfl Entitled.wake (replace top trivial) elsewhere
  | looked top =>
    obtain ⟨attached, ticket, payload, registers, found⟩ :=
      calls thread _ (top ▸ List.mem_cons_self)
    refine frames_of_own none rfl Entitled.wake (replace top ?_) elsewhere
    unfold waitStage
    split
    · rename_i done
      dsimp only at ticket registers found
      subst ticket registers
      exact ⟨found, ledger.settled_of_completedThrough attached done⟩
    · exact ⟨attached, ticket, payload, registers, found⟩
  | handedOver top phase queue =>
    have pledged := calls thread _ (top ▸ List.mem_cons_self)
    exact frames_of_own _ rfl Entitled.wake (replace top (Pledged.later pledged later)) elsewhere
  | drained top phase empty =>
    have pledged := calls thread _ (top ▸ List.mem_cons_self)
    have size := congrArg List.length books.conserved
    have gone := (books.quiet rfl).1
    simp only [Registry.queue, empty, List.append_nil, List.length_map] at size
    exact frames_of_own _ rfl Entitled.wake
      (replace top ((Pledged.later pledged later).kept (Nat.le_of_eq (size.trans gone)))) elsewhere
  | detached top phase =>
    have yes := ((top ▸ shaped thread).of_drains rfl).1
    simp [Registry.deliverer?, phase] at yes
  | ended ending top =>
    have pledged := calls thread _ (top ▸ List.mem_cons_self)
    exact frames_of_own none rfl Entitled.wake (replace top (Pledged.later pledged later)) elsewhere
  | returned top =>
    refine frames_of_own none rfl Entitled.wake ?_ elsewhere
    intro frame hm
    exact (calls thread frame (top ▸ List.mem_cons_of_mem _ hm)).later later

/-- A call returns by the step that takes it off its thread, and by no other. -/
theorem Transition.returned_mem (h : Transition world thread next) {other : τ} {call : Call ι}
    {arrival : Nat} {reply : Reply} (mem : .returned other call arrival reply ∈ next.history) :
    .returned other call arrival reply ∈ world.history ∨
      (other = thread ∧ world.frames thread = ⟨call, arrival, .leaving reply⟩ :: next.frames thread) := by
  cases h
  case returned top =>
    rcases List.mem_append.mp mem with mem | mem
    · exact .inl mem
    · simp only [List.mem_singleton, Occurrence.returned.injEq] at mem
      obtain ⟨rfl, rfl, rfl, rfl⟩ := mem
      exact .inr ⟨rfl, by simpa using top⟩
  case looked | drained | detached => exact .inl mem
  all_goals exact .inl (by simpa using mem)

theorem buffered_of_attached (h : Transition world thread next)
    (attached : world.registry.isAttached = true) :
    next.registry.counters.buffered = world.registry.counters.buffered := by
  cases h
  case buffered phase => simp [Registry.isAttached, phase] at attached
  case handedOver | drained => exact Counters.buffered_settle _ _
  all_goals rfl

theorem split_concat {α : Type} {list before after : List α} {last middle : α}
    (h : list ++ [last] = before ++ middle :: after) :
    (list = before ∧ last = middle) ∨ ∃ rest, list = before ++ middle :: rest := by
  rcases List.eq_nil_or_concat after with rfl | ⟨rest, final, rfl⟩
  · obtain ⟨same, final⟩ := List.append_inj' h rfl
    exact .inl ⟨same, List.head_eq_of_cons_eq final⟩
  · have parts : list ++ [last] = (before ++ middle :: rest) ++ [final] := by simpa using h
    exact .inr ⟨rest, (List.append_inj' parts rfl).1⟩

theorem cut_step (ledger : Ledger world) (promises : Promises world)
    (h : Transition world thread next) {before after other consumer flushed}
    (split : next.history = before ++ .offered other consumer (.installed flushed) :: after) :
    next.registry.isAttached = true ∧ flushed = next.registry.counters.buffered ∧
      (arrivals before).length = flushed := by
  -- An installation already in the history stays where it is.
  have old : (∃ rest, world.history = before ++ .offered other consumer (.installed flushed) :: rest) →
      next.registry.isAttached = true ∧ flushed = next.registry.counters.buffered ∧
        (arrivals before).length = flushed := by
    rintro ⟨rest, split⟩
    obtain ⟨attached, count, size⟩ := promises.cut split
    exact ⟨(later_of_transition h).attached attached,
      count.trans (buffered_of_attached h attached).symm, size⟩
  cases h
  case installed top phase =>
    rcases split_concat split with ⟨rfl, made⟩ | split
    · simp only [Occurrence.offered.injEq, Offer.installed.injEq] at made
      obtain ⟨_, _, rfl⟩ := made
      have pending := congrArg List.length (ledger.pending phase).2
      rw [List.length_map] at pending
      exact ⟨rfl, pending.symm.trans (ledger.awaiting phase).2.symm, pending⟩
    · exact old split
  case looked | drained | detached => exact old ⟨_, split⟩
  all_goals
    rcases split_concat split with ⟨_, made⟩ | split
    · simp at made
    · exact old split

theorem promises_step (shaped : WellShaped world) (ledger : Ledger world) (promises : Promises world)
    (h : Transition world thread next) : Promises next where
  calls := entitled_step shaped ledger (ledger_step shaped ledger h) promises.calls h
  returns mem := by
    have later := later_of_transition h
    rcases h.returned_mem mem with mem | ⟨rfl, top⟩
    · exact (promises.returns mem).later later
    · have kept := promises.calls _ _ (top ▸ List.mem_cons_self)
      exact Kept.later kept later
  cut split := cut_step ledger promises h split

end Transitions

structure Coherent (world : World ι τ) : Prop where
  shaped : WellShaped world
  ledger : Ledger world
  promises : Promises world

theorem coherent_start (label : String) : Coherent (World.start label : World ι τ) :=
  ⟨wellShaped_start label, ledger_start label, promises_start label⟩

theorem coherent_step [DecidableEq τ] {world next : World ι τ} {thread : τ} (h : Coherent world)
    (step : Transition world thread next) : Coherent next :=
  ⟨wellShaped_step h.shaped step, ledger_step h.shaped h.ledger step,
    promises_step h.shaped h.ledger h.promises step⟩

theorem coherent [DecidableEq ι] [DecidableEq τ] {world : World ι τ} (reached : Reachable world) :
    Coherent world :=
  reached.induction coherent_start coherent_step

section Coherent

variable {world : World ι τ}

theorem Coherent.handed_isPrefix (h : Coherent world) :
    handed world.history <+: (arrivals world.history).map Prod.snd :=
  ⟨_, h.ledger.conserved.symm⟩

/-- Hand-overs go by the numbers of the arrivals. -/
theorem Coherent.payload_of_handed (h : Coherent world) {number : Nat} {thread : τ}
    {payload first : Payload} (arrived : (arrivals world.history)[number]? = some (thread, payload))
    (gone : (handed world.history)[number]? = some first) : first = payload := by
  obtain ⟨bound, rfl⟩ := List.getElem?_eq_some_iff.mp gone
  have same := List.prefix_iff_getElem?.mp h.handed_isPrefix number bound
  rw [List.getElem?_map, arrived] at same
  exact (Option.some.inj same).symm

theorem Coherent.handed_of_settled (h : Coherent world) {number : Nat} {thread : τ}
    {payload : Payload} (arrived : (arrivals world.history)[number]? = some (thread, payload))
    (done : number < world.registry.counters.settled) :
    (handed world.history)[number]? = some payload := by
  have bounds := h.ledger.bounds h.shaped
  have made : number < (handed world.history).length := by omega
  have found := List.getElem?_eq_getElem made
  rw [found, h.payload_of_handed arrived found]

/-- The consumer calls for what was pending at the installation have ended when it returns. -/
theorem Coherent.flushed (h : Coherent world) {thread : τ} {consumer : ι}
    {arrival flushed : Nat}
    (told : .returned thread (.install consumer) arrival (.installation (.installed flushed)) ∈
      world.history) :
    flushed = world.registry.counters.buffered ∧ flushed ≤ world.registry.counters.settled := by
  obtain ⟨offered, done⟩ := h.promises.returns told
  obtain ⟨before, after, split⟩ := List.append_of_mem offered
  exact ⟨(h.promises.cut split).2.1, done⟩

end Coherent

end ImplementorIndex.Threads
