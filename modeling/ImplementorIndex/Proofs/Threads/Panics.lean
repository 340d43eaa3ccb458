import ImplementorIndex.Proofs.Threads.Calls
import ImplementorIndex.Proofs.Threads.Consumer
import ImplementorIndex.Proofs.Threads.Replies

/-!
# A consumer that breaks off is transparent

How a consumer call ended is counted, and nothing else depends on it. Here this is said by forgetting
it: when all ends of consumer calls are replaced by plain returns, in the world as well as in the
moves, every step still leads to the same place. So two schedules that differ only in how consumer
calls end run side by side, and only the two totals of the ends can tell them apart.
-/

namespace ImplementorIndex

variable {ι τ : Type}

def Ending.forget? (last : Option Ending) : Option Ending := last.map fun _ => .returned

def Counters.forget (counters : Counters) : Counters :=
  { counters with delivered := counters.settled, panicked := 0 }

theorem Counters.settle_forget (counters : Counters) (last : Option Ending) :
    counters.forget.settle (Ending.forget? last) = (counters.settle last).forget := by
  rcases last with _ | _ | _
  · rfl
  · simp only [Ending.forget?, Option.map_some, settle, count, forget, settled, Counters.mk.injEq,
      true_and, and_true]
    omega
  · rfl

theorem Counters.ends_forget? (last : Option Ending) :
    Counters.ends (Ending.forget? last) = Counters.ends last := by
  cases last <;> rfl

namespace Registry

def forget (registry : Registry ι τ) : Registry ι τ :=
  { registry with counters := registry.counters.forget }

@[simp] theorem phase_forget (registry : Registry ι τ) : registry.forget.phase = registry.phase := rfl

theorem eq_of_forget {registry other : Registry ι τ} (same : other.forget = registry.forget) :
    other = { registry with
      counters := { registry.counters with
        delivered := other.counters.delivered
        panicked := other.counters.panicked } } := by
  obtain ⟨label, phase, counters⟩ := registry
  obtain ⟨tag, state, totals⟩ := other
  simp only [forget, Counters.forget, Registry.mk.injEq, Counters.mk.injEq] at same
  obtain ⟨rfl, rfl, registered, buffered, _, _, rejected⟩ := same
  simp [← registered, ← buffered, ← rejected]

variable [DecidableEq ι] [DecidableEq τ] (registry : Registry ι τ) (me : τ)

omit [DecidableEq ι] in
theorem receive_forget (payload : Payload) :
    registry.forget.receive me payload =
      ((registry.receive me payload).1.forget, (registry.receive me payload).2) := by
  cases phase : registry.phase with
  | awaiting pending => simp only [receive, phase_forget, phase]; rfl
  | attached delivery =>
    cases busy : delivery.deliverer with
    | none => simp only [receive, phase_forget, phase, busy]; rfl
    | some deliverer => simp only [receive, phase_forget, phase, busy]; rfl

omit [DecidableEq τ] in
theorem offer_forget (consumer : ι) :
    registry.forget.offer me consumer =
      ((registry.offer me consumer).1.forget, (registry.offer me consumer).2) := by
  cases phase : registry.phase with
  | awaiting pending => simp only [offer, phase_forget, phase]; rfl
  | attached delivery =>
    simp only [offer, phase_forget, phase]
    split <;> rfl

omit [DecidableEq ι] [DecidableEq τ] in
theorem advance_forget (last : Option Ending) :
    registry.forget.advance (Ending.forget? last) =
      ((registry.advance last).1.forget, (registry.advance last).2) := by
  cases phase : registry.phase with
  | awaiting pending => simp only [advance, phase_forget, phase]
  | attached delivery =>
    have same : registry.forget.phase = .attached delivery := phase
    rw [advance_attached same, advance_attached phase, Counters.ends_forget?]
    cases delivery.inflight with
    | nil => simp only [forget, Counters.settle_forget]
    | cons payload queue => simp only [forget, Counters.settle_forget]

end Registry

namespace Threads

def Stage.forget : Stage ι → Stage ι
  | pumping reply consumer last => pumping reply consumer (Ending.forget? last)
  | stage => stage

def Frame.forget (frame : Frame ι) : Frame ι := { frame with stage := frame.stage.forget }

def Occurrence.forget : Occurrence ι τ → Occurrence ι τ
  | ended thread number _ => ended thread number .returned
  | occurrence => occurrence

def Move.forget : Move ι → Move ι
  | finish _ => finish .returned
  | move => move

def World.forget (world : World ι τ) : World ι τ where
  registry := world.registry.forget
  frames thread := (world.frames thread).map Frame.forget
  history := world.history.map Occurrence.forget

theorem filterMap_forget {α : Type} {view : Occurrence ι τ → Option α}
    (blind : ∀ occurrence, view occurrence.forget = view occurrence)
    (history : List (Occurrence ι τ)) :
    (history.map Occurrence.forget).filterMap view = history.filterMap view := by
  rw [List.filterMap_map]
  exact List.filterMap_congr fun occurrence _ => blind occurrence

section Views

variable (history : List (Occurrence ι τ))

@[simp] theorem arrivals_forget : arrivals (history.map Occurrence.forget) = arrivals history :=
  filterMap_forget (fun occurrence => by cases occurrence <;> rfl) history

@[simp] theorem handed_forget : handed (history.map Occurrence.forget) = handed history :=
  filterMap_forget (fun occurrence => by cases occurrence <;> rfl) history

theorem invocations_forget : invocations (history.map Occurrence.forget) = invocations history :=
  filterMap_forget (fun occurrence => by cases occurrence <;> rfl) history

theorem answers_forget : answers (history.map Occurrence.forget) = answers history :=
  filterMap_forget (fun occurrence => by cases occurrence <;> rfl) history

end Views

theorem Stage.isAccepting_forget (stage : Stage ι) :
    stage.forget.isAccepting = stage.isAccepting := by
  cases stage <;> rfl

theorem Frame.wake_forget (frame : Frame ι) : frame.forget.wake = frame.wake.forget := by
  obtain ⟨call, arrival, stage⟩ := frame
  cases stage <;> rfl

theorem waitStage_forget (registry : Registry ι τ) (ticket : Nat) :
    (waitStage registry ticket).forget = waitStage registry.forget ticket := by
  have same : registry.forget.completedThrough ticket = registry.completedThrough ticket := rfl
  unfold waitStage
  rw [same]
  split <;> rfl

theorem receiptStage_forget (registry : Registry ι τ) (receipt : Receipt) :
    receiptStage registry.forget receipt = (receiptStage registry receipt).forget := by
  cases receipt with
  | deliver =>
    simp only [receiptStage, pumpStage, Registry.phase_forget]
    cases registry.phase <;> rfl
  | wait ticket => exact (waitStage_forget registry ticket).symm
  | _ => rfl

theorem offerStage_forget (consumer : ι) (offer : Offer) :
    (offerStage consumer offer).forget = offerStage consumer offer := by
  cases offer <;> rfl

section Steps

variable [DecidableEq τ]

theorem update_forget (frames : τ → List (Frame ι)) (thread : τ) (stack : List (Frame ι)) :
    (fun other => (Function.update frames thread stack other).map Frame.forget) =
      Function.update (fun other => (frames other).map Frame.forget) thread
        (stack.map Frame.forget) := by
  funext other
  by_cases same : other = thread
  · subst same
    simp
  · simp [same]

omit [DecidableEq τ] in
theorem notified_forget (world : World ι τ) (last : Option Ending) :
    world.forget.notified (Ending.forget? last) =
      fun thread => (world.notified last thread).map Frame.forget := by
  cases last with
  | none => rfl
  | some ending =>
    funext thread
    simp only [World.notified, Ending.forget?, Option.map_some, World.forget, List.map_map]
    apply List.map_congr_left
    intro frame _
    exact Frame.wake_forget frame

variable [DecidableEq ι] (world : World ι τ) (thread : τ)

theorem enter_forget (call : Call ι) (rest : List (Frame ι)) :
    world.forget.enter thread call (rest.map Frame.forget) =
      (world.enter thread call rest).forget := by
  cases call with
  | register payload =>
    simp only [World.enter, World.forget, Registry.receive_forget, receiptStage_forget,
      arrivals_forget, update_forget, List.map_append, List.map_cons, List.map_nil]
    rfl
  | install consumer =>
    simp only [World.enter, World.forget, Registry.offer_forget, arrivals_forget, update_forget,
      List.map_append, List.map_cons, List.map_nil, Frame.forget, offerStage_forget]
    rfl

omit [DecidableEq ι] in
theorem pump_forget (frame : Frame ι) (rest : List (Frame ι)) (reply : Reply) (consumer : ι)
    (last : Option Ending) :
    world.forget.pump thread frame.forget (rest.map Frame.forget) reply consumer
        (Ending.forget? last) =
      (world.pump thread frame rest reply consumer last).forget := by
  unfold World.pump
  rw [notified_forget]
  have same : world.forget.registry = world.registry.forget := rfl
  rw [same, Registry.advance_forget]
  cases world.registry.advance last with
  | mk registry next =>
    cases next with
    | none =>
      simp only [World.forget, update_forget]
      rfl
    | some payload =>
      simp only [World.forget, update_forget, handed_forget, List.map_append, List.map_cons,
        List.map_nil]
      rfl

theorem proceed_forget : world.forget.proceed thread = (world.proceed thread).map World.forget := by
  unfold World.proceed
  have same : world.forget.frames thread = (world.frames thread).map Frame.forget := rfl
  rw [same]
  cases world.frames thread with
  | nil => rfl
  | cons frame rest =>
    obtain ⟨call, arrival, stage⟩ := frame
    cases stage with
    | entering =>
      simp only [List.map_cons, Frame.forget, Stage.forget, Option.map_some]
      exact congrArg some (enter_forget world thread call rest)
    | waiting ticket parked =>
      cases parked with
      | true => rfl
      | false =>
        simp only [List.map_cons, Frame.forget, Option.map_some, World.forget, update_forget,
          waitStage_forget]
        rfl
    | pumping reply consumer last =>
      exact congrArg some
        (pump_forget world thread ⟨call, arrival, .pumping reply consumer last⟩ rest reply consumer last)
    | accepting reply number consumer payload => rfl
    | leaving reply =>
      simp only [List.map_cons, Frame.forget, Stage.forget, Option.map_some, World.forget,
        update_forget, List.map_append, List.map_nil]
      rfl

omit [DecidableEq ι] in
theorem finish_forget (ending : Ending) :
    world.forget.finish thread .returned = (world.finish thread ending).map World.forget := by
  unfold World.finish
  have same : world.forget.frames thread = (world.frames thread).map Frame.forget := rfl
  rw [same]
  cases world.frames thread with
  | nil => rfl
  | cons frame rest =>
    obtain ⟨call, arrival, stage⟩ := frame
    cases stage with
    | accepting reply number consumer payload =>
      simp only [List.map_cons, Frame.forget, Stage.forget, Option.map_some, World.forget,
        update_forget, List.map_append, List.map_nil]
      rfl
    | _ => rfl

/-- Where a step leads does not depend on how consumer calls ended. -/
theorem step_forget (move : Move ι) :
    world.forget.step thread move.forget = (world.step thread move).map World.forget := by
  cases move with
  | call call =>
    have may : world.forget.mayCall thread = world.mayCall thread := by
      simp only [World.mayCall, World.forget]
      cases world.frames thread with
      | nil => rfl
      | cons frame rest => exact Stage.isAccepting_forget frame.stage
    simp only [Move.forget, World.step, may]
    split
    · simp only [Option.map_some, World.forget, update_forget, List.map_append, List.map_cons,
        List.map_nil]
      rfl
    · rfl
  | proceed => exact proceed_forget world thread
  | finish ending => exact finish_forget world thread ending

theorem run_forget (schedule : List (τ × Move ι)) :
    world.forget.run (schedule.map fun one => (one.1, one.2.forget)) =
      (world.run schedule).map World.forget := by
  induction schedule generalizing world with
  | nil => rfl
  | cons first rest ih =>
    simp only [List.map_cons, World.run, step_forget]
    cases world.step first.1 first.2 with
    | none => rfl
    | some next => exact ih next

/-- Two schedules that differ only in how consumer calls end lead to worlds that differ only in it. -/
theorem exists_twin {schedule other : List (τ × Move ι)} {start : World ι τ}
    (same : (other.map fun one => (one.1, one.2.forget)) =
      schedule.map fun one => (one.1, one.2.forget))
    (ran : start.run schedule = some world) :
    ∃ twin, start.run other = some twin ∧ twin.forget = world.forget := by
  have along := run_forget start other
  rw [same, run_forget, ran] at along
  exact Option.map_eq_some_iff.mp along.symm

end Steps

def Move.ending? : Move ι → Option Ending
  | finish ending => some ending
  | _ => none

def finishes (schedule : List (τ × Move ι)) : List Ending :=
  schedule.filterMap fun one => one.2.ending?

theorem finishes_cons (first : τ × Move ι) (rest : List (τ × Move ι)) :
    finishes (first :: rest) = first.2.ending?.toList ++ finishes rest := by
  cases ending : first.2.ending? <;> simp [finishes, ending]

section Ends

variable [DecidableEq ι] [DecidableEq τ] {world next : World ι τ} {thread : τ}

theorem endings_proceed (h : world.proceed thread = some next) :
    endings next.history = endings world.history := by
  unfold World.proceed at h
  split at h
  · cases h
  · rename_i frame rest top
    obtain ⟨call, arrival, stage⟩ := frame
    cases stage with
    | entering =>
      obtain rfl := Option.some.inj h
      cases call <;> simp [World.enter]
    | waiting ticket parked =>
      cases parked with
      | true => cases h
      | false =>
        obtain rfl := Option.some.inj h
        rfl
    | pumping reply consumer last =>
      obtain rfl := Option.some.inj h
      unfold World.pump
      split <;> simp
    | accepting => cases h
    | leaving reply =>
      obtain rfl := Option.some.inj h
      simp

theorem endings_step {move : Move ι} (h : world.step thread move = some next) :
    (endings next.history).map Prod.snd =
      (endings world.history).map Prod.snd ++ move.ending?.toList := by
  cases move with
  | call call =>
    simp only [World.step] at h
    split at h
    · obtain rfl := Option.some.inj h
      simp [Move.ending?]
    · cases h
  | proceed =>
    rw [endings_proceed h]
    exact (List.append_nil _).symm
  | finish ending =>
    simp only [World.step, World.finish] at h
    split at h
    · obtain rfl := Option.some.inj h
      simp [Move.ending?]
    · cases h

theorem endings_run {schedule : List (τ × Move ι)} (ran : world.run schedule = some next) :
    (endings next.history).map Prod.snd =
      (endings world.history).map Prod.snd ++ finishes schedule := by
  induction schedule generalizing world with
  | nil =>
    obtain rfl := Option.some.inj ran
    exact (List.append_nil _).symm
  | cons first rest ih =>
    obtain ⟨middle, moved, ran⟩ := Option.bind_eq_some_iff.mp ran
    rw [ih ran, endings_step moved, finishes_cons, List.append_assoc]

end Ends

/-- The consumer calls with these numbers break off, and the others end as they did. -/
def breakOff (broken : Nat → Option Panic) (number : Nat) (ending : Ending) : Ending :=
  match broken number with
  | none => ending
  | some cause => .panicked cause

/-- A schedule in which some consumer calls break off, after so many calls have ended. -/
def recast (broken : Nat → Option Panic) : Nat → List (τ × Move ι) → List (τ × Move ι)
  | _, [] => []
  | number, (thread, .finish ending) :: rest =>
    (thread, .finish (breakOff broken number ending)) :: recast broken (number + 1) rest
  | number, (thread, .call call) :: rest => (thread, .call call) :: recast broken number rest
  | number, (thread, .proceed) :: rest => (thread, .proceed) :: recast broken number rest

section Recast

variable (broken : Nat → Option Panic) (schedule : List (τ × Move ι))

theorem take_recast (number steps : Nat) :
    (recast broken number schedule).take steps = recast broken number (schedule.take steps) := by
  induction schedule generalizing number steps with
  | nil => simp [recast]
  | cons first rest ih =>
    obtain ⟨thread, move⟩ := first
    cases steps with
    | zero => rfl
    | succ steps => cases move <;> simp only [recast, List.take_succ_cons, ih]

theorem map_forget_recast (number : Nat) :
    ((recast broken number schedule).map fun one => (one.1, one.2.forget)) =
      schedule.map fun one => (one.1, one.2.forget) := by
  induction schedule generalizing number with
  | nil => rfl
  | cons first rest ih =>
    obtain ⟨thread, move⟩ := first
    cases move with
    | finish ending =>
      simp only [recast, List.map_cons, ih]
      rfl
    | call call => simp only [recast, List.map_cons, ih]
    | proceed => simp only [recast, List.map_cons, ih]

theorem finishes_recast (number : Nat) :
    finishes (recast broken number schedule) =
      (finishes schedule).mapIdx fun place ending => breakOff broken (number + place) ending := by
  induction schedule generalizing number with
  | nil => rfl
  | cons first rest ih =>
    obtain ⟨thread, move⟩ := first
    cases move with
    | finish ending =>
      rw [recast, finishes_cons, finishes_cons, ih]
      simp [Move.ending?, Nat.add_assoc, Nat.add_comm 1]
    | call call => exact ih number
    | proceed => exact ih number

end Recast

theorem eq_mapIdx_of_numbered {α : Type} {list : List (Nat × α)}
    (numbered : list.map Prod.fst = List.range list.length) :
    list = (list.map Prod.snd).mapIdx fun place item => (place, item) := by
  apply List.ext_getElem
  · simp
  · intro place bound _
    have number := congrArg (·[place]?) numbered
    simp only [List.getElem?_map, List.getElem?_eq_getElem bound, Option.map_some,
      List.getElem?_range bound, Option.some.injEq] at number
    rw [List.getElem_mapIdx, List.getElem_map]
    exact Prod.ext number rfl

/-- The counted consumer calls that returned and that are to break off. -/
def World.moved (world : World ι τ) (broken : Nat → Option Panic) : Nat :=
  ((endings world.history).take world.registry.counters.settled).countP fun ended =>
    (broken ended.1).isSome ∧ ended.2 = .returned

section Twins

variable {world twin : World ι τ} {broken : Nat → Option Panic}

theorem countP_breakOff (list : List (Nat × Ending)) :
    (list.countP fun ended => ended.2 = .returned) =
      ((list.map fun ended => (ended.1, breakOff broken ended.1 ended.2)).countP fun ended =>
        ended.2 = .returned) +
      list.countP fun ended => (broken ended.1).isSome ∧ ended.2 = .returned := by
  induction list with
  | nil => rfl
  | cons first rest ih =>
    obtain ⟨number, ending⟩ := first
    simp only [List.map_cons, List.countP_cons, ih]
    cases cause : broken number with
    | none =>
      simp only [breakOff, cause, List.countP_map, Option.isSome_none, Bool.false_eq_true, false_and,
        decide_false, ↓reduceIte]
      omega
    | some panic =>
      simp only [breakOff, cause, List.countP_map, Option.isSome_some, true_and, reduceCtorEq,
        decide_false, Bool.false_eq_true, ↓reduceIte]
      omega

/-- Two runs that differ only in how consumer calls ended have the same registry, the totals of the
ends apart, and these differ by the calls that broke off in one and returned in the other. -/
theorem registry_of_twin (all : Coherent world) (also : Coherent twin)
    (same : twin.registry.forget = world.registry.forget)
    (ends : endings twin.history =
      (endings world.history).map fun ended => (ended.1, breakOff broken ended.1 ended.2)) :
    world.registry.counters.delivered =
        twin.registry.counters.delivered + world.moved broken ∧
      twin.registry = { world.registry with
        counters := { world.registry.counters with
          delivered := twin.registry.counters.delivered
          panicked := world.registry.counters.panicked + world.moved broken } } := by
  have settled : twin.registry.counters.settled = world.registry.counters.settled :=
    congrArg (fun registry => registry.counters.delivered) same
  have delivered : world.registry.counters.delivered =
      twin.registry.counters.delivered + world.moved broken := by
    rw [all.counted.2.1, also.counted.2.1, settled, ends, ← List.map_take]
    exact countP_breakOff _
  -- The two totals have the same sum in both worlds: what one loses the other gains.
  have panicked : twin.registry.counters.panicked =
      world.registry.counters.panicked + world.moved broken := by
    simp only [Counters.settled] at settled
    omega
  refine ⟨delivered, ?_⟩
  rw [← panicked]
  exact Registry.eq_of_forget same

end Twins

section Results

variable [DecidableEq ι] [DecidableEq τ] {label : String} {schedule : List (τ × Move ι)}
  {world twin : World ι τ}

/-- The ends of the recast run, each under the number of its hand-over. -/
theorem endings_recast (broken : Nat → Option Panic)
    (ran : (World.start label).run schedule = some world)
    (also : (World.start label).run (recast broken 0 schedule) = some twin) :
    endings twin.history =
      (endings world.history).map fun ended => (ended.1, breakOff broken ended.1 ended.2) := by
  have numbered := (coherent ⟨label, _, ran⟩).ledger.numbered
  have renumbered := (coherent ⟨label, _, also⟩).ledger.numbered
  have ends : (endings world.history).map Prod.snd = finishes schedule := endings_run ran
  have recasts : (endings twin.history).map Prod.snd = finishes (recast broken 0 schedule) :=
    endings_run also
  -- Hand-overs end in the order of their numbers, so the ends of a run are its schedule's, counted up.
  rw [eq_mapIdx_of_numbered renumbered, eq_mapIdx_of_numbered numbered, recasts, finishes_recast, ends]
  apply List.ext_getElem
  · simp
  · intro place _ _
    simp

/-- Consumer calls that break off are transparent. Let any of the consumer calls of a run break off
instead of ending as they did, everything else being the same. Then after every number of steps the
same has happened in the same order, the ends of these calls apart: the same consumer calls, the same
answers to all calls, and the same registry, except that each of these calls that had returned is now
counted among the others. Every call stands where it stood, and no call is lost: each one begun has
been answered or is still under way. -/
theorem panics_transparent (broken : Nat → Option Panic)
    (ran : (World.start label).run schedule = some world) (steps : Nat) :
    ∃ before other : World ι τ,
      (World.start label).run (schedule.take steps) = some before ∧
      (World.start label).run ((recast broken 0 schedule).take steps) = some other ∧
      invocations other.history = invocations before.history ∧
      answers other.history = answers before.history ∧
      other.history.map Occurrence.forget = before.history.map Occurrence.forget ∧
      endings other.history =
        (endings before.history).map (fun ended => (ended.1, breakOff broken ended.1 ended.2)) ∧
      before.registry.counters.delivered =
        other.registry.counters.delivered + before.moved broken ∧
      other.registry = { before.registry with
        counters := { before.registry.counters with
          delivered := other.registry.counters.delivered
          panicked := before.registry.counters.panicked + before.moved broken } } ∧
      (∀ thread, (other.frames thread).map Frame.forget =
        (before.frames thread).map Frame.forget) ∧
      (∀ thread, (own thread (begun other.history)).Perm
        ((own thread (answers other.history)).map Prod.fst ++
          (other.frames thread).map Frame.call)) := by
  obtain ⟨before, early⟩ : ∃ before, (World.start label).run (schedule.take steps) = some before := by
    rw [← List.take_append_drop steps schedule, run_append] at ran
    obtain ⟨before, early, _⟩ := Option.bind_eq_some_iff.mp ran
    exact ⟨before, early⟩
  obtain ⟨other, also, same⟩ :=
    exists_twin before (map_forget_recast broken (schedule.take steps) 0) early
  have history : other.history.map Occurrence.forget = before.history.map Occurrence.forget :=
    congrArg World.history same
  have ends := endings_recast broken early also
  obtain ⟨delivered, registry⟩ := registry_of_twin (coherent ⟨label, _, early⟩)
    (coherent ⟨label, _, also⟩) (congrArg World.registry same) ends
  rw [take_recast]
  refine ⟨before, other, early, also, ?_, ?_, history, ends, delivered, registry, ?_, ?_⟩
  · rw [← invocations_forget, history, invocations_forget]
  · rw [← answers_forget, history, answers_forget]
  · intro thread
    exact congrFun (congrArg World.frames same) thread
  · exact (accounted ⟨label, _, also⟩).calls

/-- A consumer is called for a buffered payload, registers another one and returns, and returns again
while a second thread waits for its own payload. -/
def returningConsumer (first second third : Payload) : List (Nat × Move Nat) :=
  [(1, .call (.register first)), (1, .proceed), (1, .proceed),
   (0, .call (.install 7)), (0, .proceed), (0, .proceed),
   (0, .call (.register second)), (0, .proceed), (0, .proceed),
   (2, .call (.register third)), (2, .proceed),
   (0, .finish .returned), (0, .proceed), (0, .finish .returned), (0, .proceed),
   (0, .finish .returned), (0, .proceed), (0, .proceed), (2, .proceed), (2, .proceed)]

theorem panics_transparent_returningConsumer : ∃ before other : World Nat Nat,
    (World.start "implementors").run (returningConsumer ⟨⟨"Clone"⟩, .empty⟩ ⟨⟨"Drop"⟩, .empty⟩
      ⟨⟨"Copy"⟩, .empty⟩) = some before ∧
    before.registry.counters = ⟨3, 1, 3, 0, 0⟩ ∧
    endings other.history =
      [(0, .panicked .wordless), (1, .returned), (2, .panicked (.text "full"))] ∧
    answers other.history = answers before.history ∧
    other.registry.phase = before.registry.phase ∧
    other.registry.counters.delivered + 2 = 3 := by
  have returning : ∃ before : World Nat Nat,
      (World.start "implementors").run (returningConsumer ⟨⟨"Clone"⟩, .empty⟩ ⟨⟨"Drop"⟩, .empty⟩
        ⟨⟨"Copy"⟩, .empty⟩) = some before ∧
      before.registry.counters = ⟨3, 1, 3, 0, 0⟩ ∧
      endings before.history = [(0, .returned), (1, .returned), (2, .returned)] :=
    ⟨_, rfl, rfl, rfl⟩
  obtain ⟨world, ran, counters, ends⟩ := returning
  -- The first call breaks off without a text, and the third one with one.
  let broken : Nat → Option Panic
    | 0 => some .wordless
    | 2 => some (.text "full")
    | _ => none
  obtain ⟨before, other, early, _, _, told, _, recast, delivered, registry, _⟩ :=
    panics_transparent broken ran 20
  obtain rfl : world = before := Option.some.inj (ran.symm.trans early)
  have moved : world.moved broken = 2 := by
    rw [World.moved, ends, counters]
    rfl
  rw [moved, counters] at delivered
  rw [ends] at recast
  refine ⟨world, other, ran, counters, recast, told, ?_, delivered.symm⟩
  rw [registry]

end Results

end Threads

end ImplementorIndex
