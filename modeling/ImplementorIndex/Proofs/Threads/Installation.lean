import ImplementorIndex.Proofs.Threads.Calls
import ImplementorIndex.Proofs.Threads.Consumer

/-!
# The first consumer stays

Consumers may be offered from several threads at once, while a delivery runs, or from inside the
consumer that is being called. The first critical section of an installation attaches its consumer.
The main statement of this module says that nothing changes that: the registry never goes back to
waiting, all consumer calls go to that consumer, one installation is told that it attached its
consumer, and every other one is told that it offered the attached consumer again, which leaves the
registry as it is, or another one, which is only counted.
-/

namespace ImplementorIndex

variable {ι τ : Type}

def Registry.consumer? (registry : Registry ι τ) : Option ι :=
  match registry.phase with
  | .awaiting _ => none
  | .attached delivery => some delivery.consumer

theorem Registry.consumer?_eq_some_iff {registry : Registry ι τ} {consumer : ι} :
    registry.consumer? = some consumer ↔
      ∃ delivery, registry.phase = .attached delivery ∧ delivery.consumer = consumer := by
  cases phase : registry.phase with
  | awaiting pending => simp [consumer?, phase]
  | attached delivery => simp [consumer?, phase]

namespace Threads

/-- What an installation is told that comes when a consumer is attached. -/
def ruling [DecidableEq ι] (attached consumer : ι) : Offer :=
  if attached = consumer then .kept else .rejected

theorem ruling_ne_installed [DecidableEq ι] (attached consumer : ι) (flushed : Nat) :
    Offer.installed flushed ≠ ruling attached consumer := by
  unfold ruling
  split <;> simp

namespace Occurrence

@[simp] def offer? : Occurrence ι τ → Option (τ × ι × Offer)
  | offered thread consumer outcome => some (thread, consumer, outcome)
  | _ => none

@[simp] def installation? : Occurrence ι τ → Option (τ × ι × Offer)
  | returned thread (.install consumer) _ (.installation outcome) => some (thread, consumer, outcome)
  | _ => none

end Occurrence

section History

variable (history : List (Occurrence ι τ))

def offers : List (τ × ι × Offer) := history.filterMap Occurrence.offer?

def installations : List (τ × ι × Offer) := history.filterMap Occurrence.installation?

@[simp] theorem offers_concat (latest : Occurrence ι τ) :
    offers (history ++ [latest]) = offers history ++ latest.offer?.toList := by
  cases latest <;> simp [offers]

end History

section Steps

variable [DecidableEq ι] [DecidableEq τ] {world next : World ι τ} {thread : τ}

/-- All that a step can do to the consumer: nothing, or attach the first one, or rule on another. -/
theorem offers_step (h : Transition world thread next) :
    (next.registry.consumer? = world.registry.consumer? ∧
      offers next.history = offers world.history) ∨
    (∃ consumer flushed, world.registry.consumer? = none ∧
      next.registry.consumer? = some consumer ∧
      offers next.history = offers world.history ++ [(thread, consumer, .installed flushed)]) ∨
    (∃ attached consumer, world.registry.consumer? = some attached ∧
      next.registry.consumer? = some attached ∧
      offers next.history =
        offers world.history ++ [(thread, consumer, ruling attached consumer)]) := by
  cases h with
  | called | ended | returned => exact .inl ⟨rfl, by simp⟩
  | looked | detached => exact .inl ⟨rfl, rfl⟩
  | buffered top phase | claimed top phase | joined top phase | handedOver top phase =>
    exact .inl ⟨by simp [Registry.consumer?, phase], by simp⟩
  | drained top phase => exact .inl ⟨by simp [Registry.consumer?, phase], rfl⟩
  | @installed consumer _ _ pending top phase =>
    refine .inr (.inl ⟨consumer, pending.length, ?_, rfl, by simp⟩)
    simp [Registry.consumer?, phase]
  | @kept consumer _ _ delivery top phase same =>
    have attached : world.registry.consumer? = some delivery.consumer := by
      simp [Registry.consumer?, phase]
    exact .inr (.inr ⟨delivery.consumer, consumer, attached, attached, by simp [ruling, same]⟩)
  | @rejected consumer _ _ delivery top phase other =>
    have attached : world.registry.consumer? = some delivery.consumer := by
      simp [Registry.consumer?, phase]
    exact .inr (.inr ⟨delivery.consumer, consumer, attached, attached, by simp [ruling, other]⟩)

theorem consumer?_step {consumer : ι} (attached : world.registry.consumer? = some consumer)
    (h : Transition world thread next) : next.registry.consumer? = some consumer := by
  rcases offers_step h with ⟨same, _⟩ | ⟨_, _, none, _⟩ | ⟨_, _, before, after, _⟩
  · rw [same, attached]
  · simp [none] at attached
  · rw [after, ← before, attached]

theorem consumer?_run {consumer : ι} {schedule : List (τ × Move ι)}
    (attached : world.registry.consumer? = some consumer)
    (ran : world.run schedule = some next) : next.registry.consumer? = some consumer :=
  run_induction (motive := fun world => world.registry.consumer? = some consumer) ran attached
    consumer?_step

omit [DecidableEq τ] in
/-- What a registry knows about the offers made to it. -/
def Ruled (world : World ι τ) : Prop :=
  match world.registry.consumer? with
  | none => offers world.history = []
  | some attached => ∃ installer flushed later,
      offers world.history = (installer, attached, .installed flushed) :: later ∧
      ∀ offer ∈ later, offer.2.2 = ruling attached offer.2.1

theorem ruled_step (ruled : Ruled world) (h : Transition world thread next) : Ruled next := by
  unfold Ruled at ruled ⊢
  rcases offers_step h with ⟨same, past⟩ | ⟨consumer, flushed, before, after, made⟩ |
    ⟨attached, consumer, before, after, made⟩
  · rw [same, past]
    exact ruled
  · rw [before] at ruled
    rw [after, made, ruled]
    exact ⟨thread, flushed, [], rfl, by simp⟩
  · rw [before] at ruled
    obtain ⟨installer, flushed, later, first, rulings⟩ := ruled
    rw [after, made, first]
    refine ⟨installer, flushed, later ++ [(thread, consumer, ruling attached consumer)], rfl, ?_⟩
    intro offer mem
    rcases List.mem_append.mp mem with old | fresh
    · exact rulings offer old
    · rw [List.mem_singleton.mp fresh]

/-- The critical section of an installation at an attached registry, whatever the registry is doing. -/
theorem step_of_offered {delivery : Delivery ι τ} {consumer : ι} {arrival : Nat}
    {rest : List (Frame ι)} (phase : world.registry.phase = .attached delivery)
    (top : world.frames thread = ⟨.install consumer, arrival, .entering⟩ :: rest) :
    ∃ next, world.step thread .proceed = some next ∧
      next.frames = Function.update world.frames thread
        (⟨.install consumer, (arrivals world.history).length,
          .leaving (.installation (ruling delivery.consumer consumer))⟩ :: rest) ∧
      next.registry = if delivery.consumer = consumer then world.registry else
        { world.registry with
          counters := { world.registry.counters with
            rejected := world.registry.counters.rejected + 1 } } := by
  refine ⟨world.enter thread (.install consumer) rest, ?_, ?_, ?_⟩
  · simp only [World.step, World.proceed, top]
  · by_cases same : delivery.consumer = consumer
    · simp [World.enter, Registry.offer, phase, same, ruling, offerStage]
    · simp [World.enter, Registry.offer, phase, same, ruling, offerStage]
  · by_cases same : delivery.consumer = consumer
    · simp [World.enter, Registry.offer, phase, same]
    · simp [World.enter, Registry.offer, phase, same]

end Steps

section Answers

def installed? : Call ι × Reply → Option (ι × Offer)
  | (.install consumer, .installation outcome) => some (consumer, outcome)
  | _ => none

def Frame.installation? (frame : Frame ι) : Option (ι × Offer) := frame.due?.bind installed?

theorem offers_eq_filterMap (history : List (Occurrence ι τ)) :
    offers history = (verdicts history).filterMap fun verdict =>
      (installed? verdict.2).map fun outcome => (verdict.1, outcome) := by
  rw [offers, verdicts, List.filterMap_filterMap]
  congr 1
  funext occurrence
  cases occurrence <;> rfl

theorem installations_eq_filterMap (history : List (Occurrence ι τ)) :
    installations history = (answers history).filterMap fun answer =>
      (installed? answer.2).map fun outcome => (answer.1, outcome) := by
  rw [installations, answers, List.filterMap_filterMap]
  congr 1
  funext occurrence
  cases occurrence with
  | returned thread call arrival reply => cases call <;> cases reply <;> rfl
  | _ => rfl

variable [DecidableEq τ]

theorem own_filterMap {α β : Type} (thread : τ) (list : List (τ × α)) (view : α → Option β) :
    own thread (list.filterMap fun item => (view item.2).map fun seen => (item.1, seen)) =
      (own thread list).filterMap view := by
  induction list with
  | nil => rfl
  | cons first rest ih =>
    obtain ⟨one, item⟩ := first
    by_cases mine : one = thread
    · cases seen : view item <;> simp_all [own]
    · cases seen : view item <;> simp_all [own]

variable {world : World ι τ}

/-- Every installation is told what its critical section decided. -/
theorem Accounted.installations (h : Accounted world) (thread : τ) :
    (own thread (offers world.history)).Perm
      (own thread (installations world.history) ++
        (world.frames thread).filterMap Frame.installation?) := by
  have told := (h.told thread).filterMap installed?
  rw [List.filterMap_append, List.filterMap_filterMap] at told
  rw [offers_eq_filterMap, installations_eq_filterMap, own_filterMap, own_filterMap]
  exact told

theorem Accounted.installations_subperm [DecidableEq ι] (h : Accounted world) :
    (Threads.installations world.history).Subperm (offers world.history) := by
  apply List.subperm_ext_iff.mpr
  rintro ⟨thread, outcome⟩ _
  rw [← count_own thread _ outcome, ← count_own thread (offers world.history) outcome,
    (h.installations thread).count_eq, List.count_append]
  exact Nat.le_add_right _ _

end Answers

section Results

variable [DecidableEq ι] [DecidableEq τ] {world : World ι τ}

theorem ruled (reached : Reachable world) : Ruled world :=
  reached.induction (fun _ => rfl) ruled_step

theorem attended (reached : Reachable world) : Attended world := by
  have both : Coherent world ∧ Attended world := by
    apply reached.induction (motive := fun world => Coherent world ∧ Attended world)
    · intro label
      exact ⟨coherent_start label, attended_of_awaiting rfl⟩
    · intro world next thread h step
      exact ⟨coherent_step h.1 step, attended_step h.1 h.2 step⟩
  exact both.2

/-- Of all answers to installations only one can say that the consumer was attached. -/
theorem exceptions_of_ruled {installer : τ} {attached : ι} {flushed : Nat}
    {later : List (τ × ι × Offer)} (reached : Reachable world)
    (first : offers world.history = (installer, attached, .installed flushed) :: later)
    (rulings : ∀ offer ∈ later, offer.2.2 = ruling attached offer.2.1) :
    ((installations world.history).filter fun answer =>
        answer.2.2 ≠ ruling attached answer.2.1) = [] ∨
      ((installations world.history).filter fun answer =>
        answer.2.2 ≠ ruling attached answer.2.1) = [(installer, attached, .installed flushed)] := by
  -- Answers are offers that have come back, so an exception among them is one among the offers.
  have only : ((offers world.history).filter fun offer =>
      decide (offer.2.2 ≠ ruling attached offer.2.1)) =
        [(installer, attached, .installed flushed)] := by
    have none : (later.filter fun offer => decide (offer.2.2 ≠ ruling attached offer.2.1)) = [] := by
      apply List.filter_eq_nil_iff.mpr
      intro offer mem
      simp [rulings offer mem]
    rw [first, List.filter_cons, none]
    simp [ruling_ne_installed]
  have among := (accounted reached).installations_subperm.filter fun offer =>
    decide (offer.2.2 ≠ ruling attached offer.2.1)
  rw [only] at among
  exact List.subperm_singleton_iff.mp among

/-- The first consumer stays. While there is none, none was offered and none called. Afterwards the
first offer is the one that attached it, every later one was ruled upon, and of the installations that
have returned only the first was told otherwise. All consumer calls went to it, it is attached in
every world that comes later, and a further offer, whatever is going on, answers by the ruling and
changes nothing or the count of rejections. What each installation was told, or will be told, is what
its critical section decided. -/
theorem first_consumer_stays (reached : Reachable world) :
    (∀ pending, world.registry.phase = .awaiting pending →
      offers world.history = [] ∧ invocations world.history = []) ∧
    (∀ delivery, world.registry.phase = .attached delivery →
      (∃ installer flushed later,
        offers world.history = (installer, delivery.consumer, .installed flushed) :: later ∧
        (∀ offer ∈ later, offer.2.2 = ruling delivery.consumer offer.2.1) ∧
        (((installations world.history).filter fun answer =>
            answer.2.2 ≠ ruling delivery.consumer answer.2.1) = [] ∨
          ((installations world.history).filter fun answer =>
            answer.2.2 ≠ ruling delivery.consumer answer.2.1) =
            [(installer, delivery.consumer, .installed flushed)])) ∧
      (∀ call ∈ invocations world.history, call.1 = delivery.consumer) ∧
      (∀ schedule next, world.run schedule = some next →
        ∃ later, next.registry.phase = .attached later ∧ later.consumer = delivery.consumer) ∧
      (∀ thread consumer arrival rest,
        world.frames thread = ⟨.install consumer, arrival, .entering⟩ :: rest →
        ∃ next, world.step thread .proceed = some next ∧
          next.frames = Function.update world.frames thread
            (⟨.install consumer, (arrivals world.history).length,
              .leaving (.installation (ruling delivery.consumer consumer))⟩ :: rest) ∧
          next.registry = if delivery.consumer = consumer then world.registry else
            { world.registry with
              counters := { world.registry.counters with
                rejected := world.registry.counters.rejected + 1 } })) ∧
    (∀ thread, (own thread (offers world.history)).Perm
      (own thread (installations world.history) ++
        (world.frames thread).filterMap Frame.installation?)) := by
  have ruled := ruled reached
  unfold Ruled at ruled
  refine ⟨?_, ?_, (accounted reached).installations⟩
  · intro pending phase
    rw [Registry.consumer?, phase] at ruled
    refine ⟨ruled, ?_⟩
    rw [← List.map_eq_nil_iff, map_snd_invocations]
    exact ((coherent reached).ledger.pending phase).1
  · intro delivery phase
    have attached : world.registry.consumer? = some delivery.consumer := by
      rw [Registry.consumer?, phase]
    rw [attached] at ruled
    obtain ⟨installer, flushed, later, first, rulings⟩ := ruled
    refine ⟨⟨installer, flushed, later, first, rulings, ?_⟩, ?_, ?_, ?_⟩
    · exact exceptions_of_ruled reached first rulings
    · intro call mem
      rw [(attended reached).invoked phase] at mem
      obtain ⟨payload, _, rfl⟩ := List.mem_map.mp mem
      rfl
    · intro schedule next ran
      exact Registry.consumer?_eq_some_iff.mp (consumer?_run attached ran)
    · intro thread consumer arrival rest top
      exact step_of_offered phase top

/-- While a consumer is being called for what was buffered, it offers another one, a second thread
offers the same again, and a third is about to offer yet another. -/
def rivalOffers (first : Payload) : List (Nat × Move Nat) :=
  [(1, .call (.register first)), (1, .proceed), (1, .proceed),
   (0, .call (.install 7)), (0, .proceed), (0, .proceed),
   (0, .call (.install 8)), (0, .proceed), (0, .proceed),
   (1, .call (.install 7)), (1, .proceed), (1, .proceed),
   (2, .call (.install 9))]

theorem first_consumer_stays_rivalOffers : ∃ (world next : World Nat Nat)
    (delivery : Delivery Nat Nat),
    (World.start "implementors").run (rivalOffers ⟨⟨"Clone"⟩, .empty⟩) = some world ∧
    world.registry.phase = .attached delivery ∧ delivery.deliverer = some 0 ∧
    offers world.history = [(0, 7, .installed 1), (0, 8, .rejected), (1, 7, .kept)] ∧
    installations world.history = [(0, 8, .rejected), (1, 7, .kept)] ∧
    (∀ call ∈ invocations world.history, call.1 = 7) ∧
    world.step 2 .proceed = some next ∧ next.registry.phase = world.registry.phase ∧
    next.registry.counters = ⟨1, 1, 0, 0, 2⟩ := by
  have busy : ∃ (world : World Nat Nat) (delivery : Delivery Nat Nat),
      (World.start "implementors").run (rivalOffers ⟨⟨"Clone"⟩, .empty⟩) = some world ∧
      world.registry.phase = .attached delivery ∧ delivery.consumer = 7 ∧
      delivery.deliverer = some 0 ∧
      offers world.history = [(0, 7, .installed 1), (0, 8, .rejected), (1, 7, .kept)] ∧
      installations world.history = [(0, 8, .rejected), (1, 7, .kept)] ∧
      world.frames 2 = [⟨.install 9, 0, .entering⟩] ∧
      world.registry.counters = ⟨1, 1, 0, 0, 1⟩ :=
    ⟨_, _, rfl, rfl, rfl, rfl, rfl, rfl, rfl, rfl⟩
  obtain ⟨world, delivery, ran, phase, attached, named, offered, told, top, counted⟩ := busy
  obtain ⟨_, calls, _, further⟩ := (first_consumer_stays ⟨_, _, ran⟩).2.1 delivery phase
  obtain ⟨next, moved, _, registry⟩ := further 2 9 0 [] top
  rw [attached] at calls registry
  refine ⟨world, next, delivery, ran, phase, named, offered, told, calls, moved, ?_, ?_⟩
  · rw [registry]
    rfl
  · rw [registry, if_neg (by decide), counted]

end Results

end Threads

end ImplementorIndex
