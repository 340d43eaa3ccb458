import Mathlib.Data.List.Perm.Subperm
import ImplementorIndex.Proofs.Threads.Promises

/-!
# Calls from their beginning to their return

A call is begun, enters the registry once, and returns with an answer. What it is told is decided in
its critical section and carried along from there, whatever the call goes through until it returns:
waiting, delivering, consumers that make calls of their own or break off. So for every thread the
calls begun are those that have entered and those still outside, and the verdicts of the critical
sections are the answers given and those still due.
-/

namespace ImplementorIndex

/-- What a caller with this receipt is told in the end. -/
def Receipt.registration : Receipt → Registration
  | buffered position => .buffered position
  | deliver => .delivered
  | queued => .queued
  | wait _ => .delivered

namespace Threads

variable {ι τ : Type}

namespace Occurrence

@[simp] def entered? : Occurrence ι τ → Option (τ × Call ι)
  | received thread payload _ => some (thread, .register payload)
  | offered thread consumer _ => some (thread, .install consumer)
  | _ => none

@[simp] def begun? : Occurrence ι τ → Option (τ × Call ι)
  | called thread call => some (thread, call)
  | _ => none

@[simp] def answer? : Occurrence ι τ → Option (τ × Call ι × Reply)
  | returned thread call _ reply => some (thread, call, reply)
  | _ => none

/-- What a critical section decides: the call that made it, and what that call will be told. -/
@[simp] def verdict? : Occurrence ι τ → Option (τ × Call ι × Reply)
  | received thread payload receipt =>
    some (thread, .register payload, .registration receipt.registration)
  | offered thread consumer offer => some (thread, .install consumer, .installation offer)
  | _ => none

end Occurrence

section History

variable (history : List (Occurrence ι τ)) (latest : Occurrence ι τ)

/-- The calls that have entered the registry, in the order of their critical sections. -/
def entered : List (τ × Call ι) := history.filterMap Occurrence.entered?

def begun : List (τ × Call ι) := history.filterMap Occurrence.begun?

def answers : List (τ × Call ι × Reply) := history.filterMap Occurrence.answer?

def verdicts : List (τ × Call ι × Reply) := history.filterMap Occurrence.verdict?

@[simp] theorem entered_concat :
    entered (history ++ [latest]) = entered history ++ latest.entered?.toList := by
  cases latest <;> simp [entered]

@[simp] theorem begun_concat :
    begun (history ++ [latest]) = begun history ++ latest.begun?.toList := by
  cases latest <;> simp [begun]

@[simp] theorem answers_concat :
    answers (history ++ [latest]) = answers history ++ latest.answer?.toList := by
  cases latest <;> simp [answers]

@[simp] theorem verdicts_concat :
    verdicts (history ++ [latest]) = verdicts history ++ latest.verdict?.toList := by
  cases latest <;> simp [verdicts]

end History

section Threads

variable {α : Type} [DecidableEq τ]

theorem length_own (thread : τ) (list : List (τ × α)) :
    (own thread list).length = (list.map Prod.fst).count thread := by
  rw [own, List.length_map, ← List.countP_eq_length_filter, List.count, List.countP_map]
  rfl

/-- A list that has no more of any thread than another one is no longer than that one. -/
theorem length_le_of_own {β : Type} {list : List (τ × α)} {more : List (τ × β)}
    (few : ∀ thread, (own thread list).length ≤ (own thread more).length) :
    list.length ≤ more.length := by
  have inside : (list.map Prod.fst).Subperm (more.map Prod.fst) := by
    apply List.subperm_ext_iff.mpr
    intro thread _
    rw [← length_own, ← length_own]
    exact few thread
  simpa using inside.length_le

theorem count_own [BEq α] [LawfulBEq α] [BEq (τ × α)] [LawfulBEq (τ × α)] (thread : τ)
    (list : List (τ × α)) (item : α) :
    (own thread list).count item = list.count (thread, item) := by
  induction list with
  | nil => rfl
  | cons first rest ih =>
    obtain ⟨one, thing⟩ := first
    by_cases mine : one = thread
    · subst mine
      by_cases same : thing = item <;> simp_all [own]
    · simp_all [own]

/-- Two lists in which every thread has the same are the same up to order. -/
theorem perm_of_own [DecidableEq α] {list other : List (τ × α)}
    (same : ∀ thread, (own thread list).Perm (own thread other)) : list.Perm other := by
  apply List.perm_iff_count.mpr
  rintro ⟨thread, item⟩
  rw [← count_own, ← count_own]
  exact (same thread).count_eq item

end Threads

/-- What a call will be told, from its critical section on. -/
def Stage.reply? : Stage ι → Option Reply
  | entering => none
  | waiting _ _ => some (.registration .delivered)
  | pumping reply _ _ => some reply
  | accepting reply _ _ _ => some reply
  | leaving reply => some reply

namespace Frame

def due? (frame : Frame ι) : Option (Call ι × Reply) :=
  frame.stage.reply?.map fun reply => (frame.call, reply)

def outside? (frame : Frame ι) : Option (Call ι) :=
  match frame.stage with
  | .entering => some frame.call
  | _ => none

/-- A call that is to be told something has entered the registry. -/
theorem outside?_of_reply {frame : Frame ι} {reply : Reply} (h : frame.stage.reply? = some reply) :
    frame.outside? = none := by
  obtain ⟨call, arrival, stage⟩ := frame
  cases stage with
  | entering => cases h
  | _ => rfl

theorem due?_wake (frame : Frame ι) : frame.wake.due? = frame.due? := by
  obtain ⟨call, arrival, stage⟩ := frame
  cases stage <;> rfl

theorem outside?_wake (frame : Frame ι) : frame.wake.outside? = frame.outside? := by
  obtain ⟨call, arrival, stage⟩ := frame
  cases stage <;> rfl

end Frame

theorem filterMap_notified {α : Type} (world : World ι τ) (last : Option Ending) (thread : τ)
    {view : Frame ι → Option α} (wake : ∀ frame, view frame.wake = view frame) :
    (world.notified last thread).filterMap view = (world.frames thread).filterMap view := by
  cases last with
  | none => rfl
  | some ending =>
    simp only [World.notified, List.filterMap_map]
    congr 1
    funext frame
    exact wake frame

/-- For every thread, the calls begun against those that have entered, and the verdicts against the
answers. Calls made inside a consumer return before the call around them, so the order may differ. -/
structure Accounted [DecidableEq τ] (world : World ι τ) : Prop where
  told : ∀ thread, (own thread (verdicts world.history)).Perm
    (own thread (answers world.history) ++ (world.frames thread).filterMap Frame.due?)
  asked : ∀ thread, (own thread (begun world.history)).Perm
    ((own thread (verdicts world.history)).map Prod.fst ++
      (world.frames thread).filterMap Frame.outside?)

section Steps

variable [DecidableEq τ] {world next : World ι τ} {thread : τ}

theorem accounted_start (label : String) : Accounted (World.start label : World ι τ) where
  told _ := .refl _
  asked _ := .refl _

/-- A step of a thread: calls that it begins, verdicts that fall, and calls that return. -/
theorem accounted_of_own (last : Option Ending) {stack : List (Frame ι)}
    (accounted : Accounted world) (started : List (Call ι)) (more back : List (Call ι × Reply))
    (frames : next.frames = Function.update (world.notified last) thread stack)
    (begins : begun next.history = begun world.history ++ started.map fun call => (thread, call))
    (decides : verdicts next.history =
      verdicts world.history ++ more.map fun verdict => (thread, verdict))
    (returns : answers next.history =
      answers world.history ++ back.map fun answer => (thread, answer))
    (told : ((world.frames thread).filterMap Frame.due? ++ more).Perm
      (back ++ stack.filterMap Frame.due?))
    (asked : ((world.frames thread).filterMap Frame.outside? ++ started).Perm
      (more.map Prod.fst ++ stack.filterMap Frame.outside?)) : Accounted next := by
  constructor
  · apply calls_of_own (motive := fun other stack => (own other (verdicts next.history)).Perm
      (own other (answers next.history) ++ stack.filterMap Frame.due?)) last frames
    · rw [decides, returns, own_append, own_append, own_self, own_self, List.append_assoc]
      apply ((accounted.told thread).append_right more).trans
      rw [List.append_assoc]
      exact told.append_left _
    · intro other ne
      rw [decides, returns, own_append, own_append, own_other ne, own_other ne, List.append_nil,
        List.append_nil, filterMap_notified world last other Frame.due?_wake]
      exact accounted.told other
  · apply calls_of_own (motive := fun other stack => (own other (begun next.history)).Perm
      ((own other (verdicts next.history)).map Prod.fst ++ stack.filterMap Frame.outside?)) last frames
    · rw [begins, decides, own_append, own_append, own_self, own_self, List.map_append,
        List.append_assoc]
      apply ((accounted.asked thread).append_right started).trans
      rw [List.append_assoc]
      exact asked.append_left _
    · intro other ne
      rw [begins, decides, own_append, own_append, own_other ne, own_other ne, List.append_nil,
        List.append_nil, filterMap_notified world last other Frame.outside?_wake]
      exact accounted.asked other

/-- The critical section of a call. -/
theorem accounted_of_entry {call : Call ι} {arrival number : Nat} {stage : Stage ι}
    {rest : List (Frame ι)} {occurrence : Occurrence ι τ} {reply : Reply}
    (accounted : Accounted world)
    (top : world.frames thread = ⟨call, arrival, .entering⟩ :: rest)
    (frames : next.frames = Function.update world.frames thread (⟨call, number, stage⟩ :: rest))
    (history : next.history = world.history ++ [occurrence])
    (decides : occurrence.verdict? = some (thread, call, reply))
    (due : stage.reply? = some reply) : Accounted next := by
  have inside : (⟨call, number, stage⟩ : Frame ι).outside? = none := Frame.outside?_of_reply due
  have owed : (⟨call, number, stage⟩ : Frame ι).due? = some (call, reply) := by
    simp [Frame.due?, due]
  apply accounted_of_own none accounted [] [(call, reply)] [] frames
  · rw [history]
    cases occurrence <;> simp_all
  · rw [history, verdicts_concat, decides]
    rfl
  · rw [history]
    cases occurrence <;> simp_all
  · rw [top, List.filterMap_cons, List.filterMap_cons, owed]
    exact List.perm_append_singleton _ _
  · rw [top, List.filterMap_cons, List.filterMap_cons, inside, List.append_nil]
    exact .refl _

/-- A call that is in the registry goes on, and what it will be told stays. -/
theorem accounted_of_reply (last : Option Ending) {call : Call ι} {arrival : Nat}
    {stage later : Stage ι} {rest : List (Frame ι)} {reply : Reply} (accounted : Accounted world)
    (begins : begun next.history = begun world.history)
    (decides : verdicts next.history = verdicts world.history)
    (returns : answers next.history = answers world.history)
    (top : world.frames thread = ⟨call, arrival, stage⟩ :: rest)
    (frames : next.frames = Function.update (world.notified last) thread
      (⟨call, arrival, later⟩ :: rest))
    (was : stage.reply? = some reply) (still : later.reply? = some reply) : Accounted next := by
  have inside : (⟨call, arrival, stage⟩ : Frame ι).outside? = none := Frame.outside?_of_reply was
  have within : (⟨call, arrival, later⟩ : Frame ι).outside? = none := Frame.outside?_of_reply still
  apply accounted_of_own last accounted [] [] [] frames
  · simpa using begins
  · simpa using decides
  · simpa using returns
  · simp [top, Frame.due?, was, still]
  · simp [top, inside, within]

theorem accounted_step (accounted : Accounted world) (h : Transition world thread next) :
    Accounted next := by
  cases h with
  | called call free =>
    apply accounted_of_own none accounted [call] [] [] rfl
    · simp
    · simp
    · simp
    · rw [List.append_nil, List.filterMap_cons]
      exact .refl _
    · rw [List.filterMap_cons]
      exact List.perm_append_singleton _ _
  | buffered top phase => exact accounted_of_entry accounted top rfl rfl rfl rfl
  | claimed top phase idle => exact accounted_of_entry accounted top rfl rfl rfl rfl
  | joined top phase busy outcome =>
    apply accounted_of_entry accounted top rfl rfl rfl
    rcases outcome with ⟨_, rfl, rfl⟩ | ⟨_, rfl, ⟨_, rfl⟩ | ⟨_, rfl⟩⟩ <;> rfl
  | installed top phase => exact accounted_of_entry accounted top rfl rfl rfl rfl
  | kept top phase same => exact accounted_of_entry accounted top rfl rfl rfl rfl
  | rejected top phase other => exact accounted_of_entry accounted top rfl rfl rfl rfl
  | looked top =>
    refine accounted_of_reply none accounted rfl rfl rfl top rfl rfl ?_
    unfold waitStage
    split <;> rfl
  | handedOver top phase queue =>
    exact accounted_of_reply _ accounted (by simp) (by simp) (by simp) top rfl rfl rfl
  | drained top phase empty => exact accounted_of_reply _ accounted rfl rfl rfl top rfl rfl rfl
  | detached top phase => exact accounted_of_reply _ accounted rfl rfl rfl top rfl rfl rfl
  | ended ending top =>
    exact accounted_of_reply none accounted (by simp) (by simp) (by simp) top rfl rfl rfl
  | @returned call _ _ reply top =>
    apply accounted_of_own none accounted [] [] [(call, reply)] rfl
    · simp
    · simp
    · simp
    · rw [top, List.append_nil, List.filterMap_cons]
      exact .refl _
    · rw [top, List.append_nil, List.filterMap_cons]
      exact .refl _

end Steps

section Results

variable [DecidableEq τ] {world : World ι τ}

theorem accounted [DecidableEq ι] (reached : Reachable world) : Accounted world :=
  reached.induction accounted_start accounted_step

/-- A call under way is outside the registry or has an answer due. -/
theorem perm_calls (stack : List (Frame ι)) :
    ((stack.filterMap Frame.due?).map Prod.fst ++ stack.filterMap Frame.outside?).Perm
      (stack.map Frame.call) := by
  induction stack with
  | nil => exact .refl _
  | cons frame rest ih =>
    obtain ⟨call, arrival, stage⟩ := frame
    cases stage with
    | entering =>
      simp only [List.filterMap_cons, Frame.due?, Stage.reply?, Option.map_none, Frame.outside?,
        List.map_cons]
      exact List.perm_middle.trans (ih.cons call)
    | _ =>
      simp only [List.filterMap_cons, Frame.due?, Stage.reply?, Option.map_some, Frame.outside?,
        List.map_cons, List.cons_append]
      exact ih.cons call

/-- No call is lost: each one that a thread began has returned with an answer or is under way. -/
theorem Accounted.calls (h : Accounted world) (thread : τ) :
    (own thread (begun world.history)).Perm
      ((own thread (answers world.history)).map Prod.fst ++
        (world.frames thread).map Frame.call) := by
  have told := (h.told thread).map Prod.fst
  rw [List.map_append] at told
  apply (h.asked thread).trans
  apply (told.append_right _).trans
  rw [List.append_assoc]
  exact (perm_calls (world.frames thread)).append_left _

theorem Accounted.length_verdicts_le (h : Accounted world) :
    (verdicts world.history).length ≤ (begun world.history).length := by
  apply length_le_of_own
  intro thread
  have size := (h.asked thread).length_eq
  rw [List.length_append, List.length_map] at size
  omega

end Results

end Threads

end ImplementorIndex
