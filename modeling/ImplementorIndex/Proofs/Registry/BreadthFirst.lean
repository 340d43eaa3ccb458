import ImplementorIndex.Proofs.Threads.Transition
import ImplementorIndex.Registry.Scene
import Mathlib.Data.List.Induction

/-!
# Payloads that bring payloads

A consumer may register payloads while it is called, and these may make it register more. Which
payloads a payload brings is a tree, and what is registered from outside is a forest. The queue is
longer after many a hand-over than before it; what gets smaller is the part of the forest that has
not been handed over. The main statement says that the call that delivers comes to its end, and that
the consumer meets the forest generation by generation, each from left to right.
-/

namespace ImplementorIndex

/-- A payload, how the consumer ends when it is called with it, and what it registers before. -/
inductive Cascade where
  | node (payload : Payload) (ending : Ending) (children : List Cascade)

namespace Cascade

def payload : Cascade → Payload
  | node payload _ _ => payload

def ending : Cascade → Ending
  | node _ ending _ => ending

def children : Cascade → List Cascade
  | node _ _ children => children

mutual

def size : Cascade → Nat
  | node _ _ children => sizeAll children + 1

def sizeAll : List Cascade → Nat
  | [] => 0
  | tree :: forest => size tree + sizeAll forest

end

mutual

def height : Cascade → Nat
  | node _ _ children => heightAll children + 1

def heightAll : List Cascade → Nat
  | [] => 0
  | tree :: forest => max (height tree) (heightAll forest)

end

/-- The nodes so many levels below the roots, from left to right. -/
def generation : Nat → List Cascade → List Cascade
  | 0, forest => forest
  | depth + 1, forest => generation depth (forest.flatMap children)

def levelOrder (forest : List Cascade) : List Payload :=
  (List.range (heightAll forest)).flatMap fun depth => (generation depth forest).map payload

theorem sizeAll_append (forest more : List Cascade) :
    sizeAll (forest ++ more) = sizeAll forest + sizeAll more := by
  induction forest with
  | nil => simp [sizeAll]
  | cons tree forest ih => simp only [List.cons_append, sizeAll, ih, Nat.add_assoc]

theorem heightAll_append (forest more : List Cascade) :
    heightAll (forest ++ more) = max (heightAll forest) (heightAll more) := by
  induction forest with
  | nil => simp [heightAll]
  | cons tree forest ih => simp only [List.cons_append, heightAll, ih, Nat.max_assoc]

/-- A forest is its roots and the forest below them. -/
theorem sizeAll_eq (forest : List Cascade) :
    sizeAll forest = forest.length + sizeAll (forest.flatMap children) := by
  induction forest with
  | nil => rfl
  | cons tree forest ih =>
    obtain ⟨payload, ending, below⟩ := tree
    rw [List.flatMap_cons, sizeAll_append, sizeAll, size, ih, List.length_cons, children]
    omega

theorem heightAll_eq {forest : List Cascade} (some : forest ≠ []) :
    heightAll forest = heightAll (forest.flatMap children) + 1 := by
  induction forest with
  | nil => exact absurd rfl some
  | cons tree forest ih =>
    obtain ⟨payload, ending, below⟩ := tree
    rw [List.flatMap_cons, heightAll_append, heightAll, height, children]
    cases forest with
    | nil => simp [heightAll]
    | cons second forest =>
      rw [ih (List.cons_ne_nil second forest)]
      omega

theorem heightAll_eq_zero {forest : List Cascade} (none : heightAll forest = 0) : forest = [] := by
  by_cases empty : forest = []
  · exact empty
  · rw [heightAll_eq empty] at none
    omega

/-- After the roots comes the forest below them. -/
theorem levelOrder_eq (forest : List Cascade) :
    levelOrder forest = forest.map payload ++ levelOrder (forest.flatMap children) := by
  by_cases empty : forest = []
  · subst empty
    rfl
  · rw [levelOrder, heightAll_eq empty, List.range_succ_eq_map, List.flatMap_cons, List.flatMap_map]
    rfl

/-- What the consumer remembers: the nodes that were registered and have not come yet, the payloads
that it was called with, and what the registrations were told. -/
structure Memory where
  waiting : List Cascade := []
  accepted : List Payload := []
  answers : List Registration := []

/-- The first node with a payload, and the others. -/
def pick (payload : Payload) : List Cascade → Option (Cascade × List Cascade)
  | [] => none
  | tree :: forest =>
    if tree.payload = payload then some (tree, forest)
    else (pick payload forest).map fun found => (found.1, tree :: found.2)

variable {ι τ : Type} [DecidableEq τ]

def expect (scene : Scene ι τ Memory) (tree : Cascade) : Scene ι τ Memory :=
  { scene with world := { scene.world with waiting := scene.world.waiting ++ [tree] } }

def bring (accept : Acceptor ι τ Memory) (extra : Nat) (me : τ) (scene : Scene ι τ Memory)
    (tree : Cascade) : Scene ι τ Memory :=
  let (scene, answer) := (expect scene tree).register accept extra me tree.payload
  { scene with world := { scene.world with answers := scene.world.answers ++ [answer] } }

/-- The consumer that registers the children of the node it is called with, in order and on the same
thread, and then ends as the node says. Among nodes with equal payloads the one that was registered
first is meant. How a payload would be taken that a registration from inside has to hand over itself
is left open. -/
def follow (inner : Acceptor ι τ Memory) (innerExtra : Nat) : Acceptor ι τ Memory :=
  fun me _ payload scene =>
    let memory := { scene.world with accepted := scene.world.accepted ++ [payload] }
    match pick payload memory.waiting with
    | none => ({ scene with world := memory }, .returned)
    | some (tree, others) =>
      (tree.children.foldl (bring inner innerExtra me)
        { scene with world := { memory with waiting := others } }, tree.ending)

/-- The thread delivers to the consumer: the queue holds the payloads of these nodes, the consumer
remembers them, so many payloads were put into the queue, and so many hand-overs have ended, the last
one included if its end has not been counted yet. -/
structure Delivers (me : τ) (consumer : ι) (queue : List Cascade) (accepted : List Payload)
    (answers : List Registration) (enqueued ended : Nat) (last : Option Ending)
    (scene : Scene ι τ Memory) : Prop where
  phase : ∃ completed, completed + Counters.ends last = ended ∧ scene.registry.phase =
    .attached ⟨consumer, queue.map payload, some me, enqueued, completed⟩
  world : scene.world = ⟨queue, accepted, answers⟩

variable (inner : Acceptor ι τ Memory) (innerExtra : Nat) {me : τ} {consumer : ι}
  {scene : Scene ι τ Memory} {queue : List Cascade} {accepted : List Payload}
  {answers : List Registration} {enqueued ended : Nat} {last : Option Ending}

theorem Delivers.bring (h : Delivers me consumer queue accepted answers enqueued ended last scene)
    (tree : Cascade) :
    Delivers me consumer (queue ++ [tree]) accepted (answers ++ [.queued]) (enqueued + 1) ended last
      (Cascade.bring inner innerExtra me scene tree) := by
  obtain ⟨completed, count, phase⟩ := h.phase
  simp only [Cascade.bring, expect, Scene.register, Registry.receive, phase, if_true]
  refine ⟨⟨completed, count, ?_⟩, ?_⟩
  · simp
  · simp [h.world]

theorem Delivers.bringAll (h : Delivers me consumer queue accepted answers enqueued ended last scene)
    (forest : List Cascade) :
    Delivers me consumer (queue ++ forest) accepted
      (answers ++ List.replicate forest.length .queued) (enqueued + forest.length) ended last
      (forest.foldl (Cascade.bring inner innerExtra me) scene) := by
  induction forest generalizing scene queue answers enqueued with
  | nil => simpa using h
  | cons tree forest ih =>
    have later := ih (h.bring inner innerExtra tree)
    rw [List.append_assoc, List.append_assoc, Nat.add_right_comm] at later
    exact later

/-- The consumer is called with the first node, which has just left the queue. -/
theorem delivers_follow {tree : Cascade}
    (phase : scene.registry.phase =
      .attached ⟨consumer, queue.map payload, some me, enqueued, ended⟩)
    (world : scene.world = ⟨tree :: queue, accepted, answers⟩) :
    ∃ after, follow inner innerExtra me consumer tree.payload scene = (after, tree.ending) ∧
      Delivers me consumer (queue ++ tree.children) (accepted ++ [tree.payload])
        (answers ++ List.replicate tree.children.length .queued) (enqueued + tree.children.length)
        ended none after := by
  have found : pick tree.payload scene.world.waiting = some (tree, queue) := by
    rw [world]
    exact if_pos rfl
  have called : Delivers me consumer queue (accepted ++ [tree.payload]) answers enqueued ended none
      { scene with world :=
        { scene.world with waiting := queue, accepted := scene.world.accepted ++ [tree.payload] } } :=
    ⟨⟨ended, rfl, phase⟩, by rw [world]⟩
  refine ⟨_, ?_, called.bringAll inner innerExtra tree.children⟩
  simp only [follow, found]

omit [DecidableEq τ] in
theorem deliver_eq (accept : Acceptor ι τ Memory) (me : τ) (consumer : ι) (payload : Payload)
    (scene : Scene ι τ Memory) :
    ∃ event, scene.deliver accept me consumer payload =
      ((accept me consumer payload scene).1.note event, (accept me consumer payload scene).2) := by
  unfold Scene.deliver
  rcases accept me consumer payload scene with ⟨after, _ | cause⟩
  · exact ⟨_, rfl⟩
  · exact ⟨_, rfl⟩

omit [DecidableEq τ] in
theorem advance_cons {registry : Registry ι τ} {payload : Payload} {rest : List Payload}
    {deliverer : Option τ} {completed : Nat}
    (phase : registry.phase = .attached ⟨consumer, payload :: rest, deliverer, enqueued, completed⟩)
    (last : Option Ending) :
    ∃ after, registry.advance last = (after, some payload) ∧ after.phase =
      .attached ⟨consumer, rest, deliverer, enqueued, completed + Counters.ends last⟩ := by
  rw [Registry.advance_attached phase last]
  exact ⟨_, rfl, rfl⟩

omit [DecidableEq τ] in
theorem advance_nil {registry : Registry ι τ} {deliverer : Option τ} {completed : Nat}
    (phase : registry.phase = .attached ⟨consumer, [], deliverer, enqueued, completed⟩)
    (last : Option Ending) :
    ∃ after, registry.advance last = (after, none) ∧ after.phase =
      .attached ⟨consumer, [], none, enqueued, completed + Counters.ends last⟩ := by
  rw [Registry.advance_attached phase last]
  exact ⟨_, rfl, rfl⟩

/-- One round of the call that delivers: the first node leaves the queue, and its children join it at
the end. -/
theorem Delivers.round {tree : Cascade}
    (h : Delivers me consumer (tree :: queue) accepted answers enqueued ended last scene) :
    ∃ after, (∀ most, scene.drain (follow inner innerExtra) me consumer (most + 1) last =
        after.drain (follow inner innerExtra) me consumer most (some tree.ending)) ∧
      Delivers me consumer (queue ++ tree.children) (accepted ++ [tree.payload])
        (answers ++ List.replicate tree.children.length .queued) (enqueued + tree.children.length)
        (ended + 1) (some tree.ending) after := by
  obtain ⟨completed, rfl, phase⟩ := h.phase
  obtain ⟨registry, advanced, attached⟩ := advance_cons phase last
  obtain ⟨called, ends, after⟩ := @delivers_follow _ _ _ inner innerExtra _ _
    { scene with registry := registry } _ _ _ _ _ _ attached h.world
  obtain ⟨event, delivered⟩ := deliver_eq (follow inner innerExtra) me consumer tree.payload
    { scene with registry := registry }
  rw [ends] at delivered
  refine ⟨called.note event, ?_, ?_⟩
  · intro most
    simp only [Scene.drain, advanced, delivered]
  · obtain ⟨settled, count, phase⟩ := after.phase
    exact ⟨⟨settled, by rw [← count]; rfl, phase⟩, after.world⟩

/-- As many rounds as there are nodes at the front of the queue: these nodes leave it, and their
children stand at the end, in order. -/
theorem Delivers.rounds (front : List Cascade)
    (h : Delivers me consumer (front ++ queue) accepted answers enqueued ended last scene) :
    ∃ after latest,
      (∀ most, scene.drain (follow inner innerExtra) me consumer (most + front.length) last =
        after.drain (follow inner innerExtra) me consumer most latest) ∧
      Delivers me consumer (queue ++ front.flatMap children) (accepted ++ front.map payload)
        (answers ++ List.replicate (front.flatMap children).length .queued)
        (enqueued + (front.flatMap children).length) (ended + front.length) latest after := by
  induction front generalizing scene queue accepted answers enqueued ended last with
  | nil => exact ⟨scene, last, fun _ => rfl, by simpa using h⟩
  | cons tree front ih =>
    rw [List.cons_append] at h
    obtain ⟨middle, once, next⟩ := h.round inner innerExtra
    rw [List.append_assoc] at next
    obtain ⟨after, latest, more, done⟩ := ih next
    refine ⟨after, latest, ?_, ?_⟩
    · intro most
      rw [List.length_cons, ← Nat.add_assoc, once, more]
    · rw [List.append_assoc, List.append_assoc, List.append_assoc, Nat.add_assoc, Nat.add_assoc,
        List.replicate_append_replicate, Nat.add_comm 1] at done
      rw [List.flatMap_cons, List.length_append]
      exact done

/-- The delivering call comes to its end, whatever the bound on its rounds, if only there are enough
of them for the nodes of the forest. -/
theorem Delivers.finish
    (h : Delivers me consumer queue accepted answers enqueued ended last scene) :
    ∃ after, (∀ most, sizeAll queue < most →
        scene.drain (follow inner innerExtra) me consumer most last = after) ∧
      after.registry.phase = .attached ⟨consumer, [], none,
        enqueued + sizeAll (queue.flatMap children), ended + sizeAll queue⟩ ∧
      after.world = ⟨[], accepted ++ levelOrder queue,
        answers ++ List.replicate (sizeAll (queue.flatMap children)) .queued⟩ := by
  -- The queue as a whole is one generation; once it is through, the next one stands in its place.
  induction tall : heightAll queue generalizing scene queue accepted answers enqueued ended last with
  | zero =>
    obtain rfl := heightAll_eq_zero tall
    obtain ⟨completed, rfl, phase⟩ := h.phase
    obtain ⟨registry, advanced, idle⟩ := advance_nil phase last
    refine ⟨{ scene with registry := registry }, ?_, idle, ?_⟩
    · intro most enough
      obtain ⟨most, rfl⟩ : ∃ fewer, most = fewer + 1 := ⟨most - 1, by omega⟩
      simp only [Scene.drain, advanced]
    · simpa [levelOrder, heightAll, sizeAll] using h.world
  | succ generations ih =>
    have some : queue ≠ [] := by
      rintro rfl
      simp [heightAll] at tall
    have lower : heightAll (queue.flatMap children) = generations := by
      rw [heightAll_eq some] at tall
      omega
    obtain ⟨middle, latest, through, next⟩ :=
      Delivers.rounds inner innerExtra queue (by rw [List.append_nil]; exact h)
    obtain ⟨after, done, phase, world⟩ := ih next lower
    refine ⟨after, ?_, ?_, ?_⟩
    · intro most enough
      rw [sizeAll_eq] at enough
      have split : most = most - queue.length + queue.length := by omega
      rw [split, through, done _ (by rw [List.nil_append]; omega)]
    · rw [phase, List.nil_append, sizeAll_eq queue, sizeAll_eq (queue.flatMap children)]
      simp only [Nat.add_assoc]
    · rw [world, List.nil_append, levelOrder_eq queue, sizeAll_eq (queue.flatMap children)]
      simp only [List.append_assoc, List.replicate_append_replicate]

theorem bring_awaiting (accept : Acceptor ι τ Memory) (extra : Nat) (tree : Cascade)
    {pending : List Payload} (phase : scene.registry.phase = .awaiting pending) :
    (bring accept extra me scene tree).registry.phase = .awaiting (pending ++ [tree.payload]) ∧
    (bring accept extra me scene tree).world =
      ⟨scene.world.waiting ++ [tree], scene.world.accepted,
        scene.world.answers ++ [.buffered pending.length]⟩ := by
  simp only [bring, expect, Scene.register, Registry.receive, phase]
  exact ⟨rfl, rfl⟩

/-- A fresh registry on which the roots of a forest have been registered in order. -/
def planted (accept : Acceptor ι τ Memory) (extra : Nat) (me : τ) (label : String)
    (forest : List Cascade) : Scene ι τ Memory :=
  forest.foldl (bring accept extra me) { registry := { label := label }, world := {} }

theorem planted_awaits (accept : Acceptor ι τ Memory) (extra : Nat) (label : String)
    (forest : List Cascade) :
    (planted accept extra me label forest).registry.phase = .awaiting (forest.map payload) ∧
    (planted accept extra me label forest).world =
      ⟨forest, [], (List.range forest.length).map .buffered⟩ := by
  induction forest using List.reverseRecOn with
  | nil => exact ⟨rfl, rfl⟩
  | append_singleton forest tree ih =>
    obtain ⟨phase, world⟩ := ih
    have next := @bring_awaiting _ _ _ me _ accept extra tree _ phase
    rw [world, List.length_map] at next
    rw [planted, List.foldl_append, List.map_append, List.length_append, List.length_singleton,
      List.range_succ, List.map_append]
    exact next

/-- The call that attaches the consumer, or that finds the queue idle, delivers until the queue is
idle again. -/
theorem exists_pump (scene : Scene ι τ Memory) (queue : List Cascade) (enqueued ended : Nat)
    (phase : scene.registry.phase =
      .attached ⟨consumer, queue.map payload, some me, enqueued, ended⟩)
    (world : scene.world = ⟨queue, accepted, answers⟩) :
    ∃ done, (∀ extra, sizeAll queue ≤ queue.length + extra →
        scene.pump (follow inner innerExtra) extra me = done) ∧
      done.registry.phase = .attached ⟨consumer, [], none,
        enqueued + (sizeAll queue - queue.length), ended + sizeAll queue⟩ ∧
      done.world = ⟨[], accepted ++ levelOrder queue,
        answers ++ List.replicate (sizeAll queue - queue.length) .queued⟩ := by
  have starts : Delivers me consumer queue accepted answers enqueued ended none scene :=
    ⟨⟨ended, rfl, phase⟩, world⟩
  obtain ⟨done, drained, idle, told⟩ := starts.finish inner innerExtra
  have nested : sizeAll (queue.flatMap children) = sizeAll queue - queue.length := by
    rw [sizeAll_eq queue]
    omega
  rw [nested] at idle told
  refine ⟨done, ?_, idle, told⟩
  intro extra enough
  simp only [Scene.pump, phase, List.length_map]
  exact drained _ (by omega)

variable [DecidableEq ι]

/-- Payloads that bring payloads are handed over breadth first, and the delivering call ends. The
roots of a forest are registered and the consumer is attached then, or it is attached already, the
queue is idle and one root is registered. In both cases the call comes to its end: the outcome is the
same for every bound on the rounds that leaves room for the payloads registered from inside, and the
queue is idle in it. The consumer was called with all payloads of the forest, generation by generation
and from left to right; every registration from inside was told that its payload is queued; and the
hand-overs have grown by the number of nodes. -/
theorem breadth_first (me : τ) (consumer : ι) :
    (∀ (label : String) (forest : List Cascade), ∃ done : Scene ι τ Memory,
      (∀ extra, sizeAll forest ≤ forest.length + extra →
        (planted (follow inner innerExtra) 0 me label forest).install (follow inner innerExtra)
          extra me consumer = (done, .installed forest.length)) ∧
      done.registry.phase = .attached ⟨consumer, [], none, sizeAll forest, sizeAll forest⟩ ∧
      done.world = ⟨[], levelOrder forest, (List.range forest.length).map .buffered ++
        List.replicate (sizeAll forest - forest.length) .queued⟩) ∧
    ∀ (scene : Scene ι τ Memory) (root : Cascade) (enqueued completed : Nat),
      scene.registry.phase = .attached ⟨consumer, [], none, enqueued, completed⟩ →
      scene.world.waiting = [] → ∃ done : Scene ι τ Memory,
        (∀ extra, root.size ≤ 1 + extra →
          (expect scene root).register (follow inner innerExtra) extra me root.payload =
            (done, .delivered)) ∧
        done.registry.phase =
          .attached ⟨consumer, [], none, enqueued + root.size, completed + root.size⟩ ∧
        done.world = ⟨[], scene.world.accepted ++ levelOrder [root],
          scene.world.answers ++ List.replicate (root.size - 1) .queued⟩ := by
  constructor
  · intro label forest
    obtain ⟨phase, world⟩ := @planted_awaits _ _ _ me (follow inner innerExtra) 0 label forest
    generalize planted (follow inner innerExtra) 0 me label forest = scene at phase world ⊢
    have offered : (scene.registry.offer me consumer).1.phase =
        .attached ⟨consumer, forest.map payload, some me, forest.length, 0⟩ := by
      simp [Registry.offer, phase]
    obtain ⟨done, pumped, idle, told⟩ := exists_pump inner innerExtra
      ({ scene with registry := (scene.registry.offer me consumer).1 }.note
        (.consumerAttached (scene.registry.offer me consumer).1.label forest.length))
      forest forest.length 0 offered world
    have whole : forest.length + (sizeAll forest - forest.length) = sizeAll forest := by
      rw [sizeAll_eq]
      omega
    rw [whole, Nat.zero_add] at idle
    refine ⟨done, ?_, idle, told⟩
    intro extra enough
    rw [← pumped extra enough]
    simp only [Scene.install, Registry.offer, phase, List.length_map]
  · intro scene root enqueued completed phase none
    have size : sizeAll [root] = root.size := by simp [sizeAll]
    have received : ((expect scene root).registry.receive me root.payload).1.phase =
        .attached ⟨consumer, [root].map payload, some me, enqueued + 1, completed⟩ := by
      simp [expect, Registry.receive, phase]
    have remembered : (expect scene root).world =
        ⟨[root], scene.world.accepted, scene.world.answers⟩ := by
      simp only [expect, none, List.nil_append]
    obtain ⟨done, pumped, idle, told⟩ := exists_pump inner innerExtra
      { expect scene root with registry := ((expect scene root).registry.receive me root.payload).1 }
      [root] (enqueued + 1) completed received remembered
    have whole : enqueued + 1 + (root.size - 1) = enqueued + root.size := by
      obtain ⟨payload, ending, children⟩ := root
      rw [Cascade.size]
      omega
    rw [size, List.length_singleton] at idle told
    rw [whole] at idle
    refine ⟨done, ?_, idle, told⟩
    intro extra enough
    rw [← pumped extra (by rw [size]; exact enough)]
    simp only [Scene.register, expect, Registry.receive, phase]

/-- Two roots; the first one brings a payload that brings another one, and a payload on which the
consumer breaks off. -/
def family : List Cascade :=
  [node ⟨⟨"a"⟩, .empty⟩ .returned
    [node ⟨⟨"c"⟩, .empty⟩ .returned [node ⟨⟨"e"⟩, .empty⟩ .returned []],
     node ⟨⟨"d"⟩, .empty⟩ (.panicked .wordless) []],
   node ⟨⟨"b"⟩, .empty⟩ .returned []]

def ignore : Acceptor Nat Nat Memory := fun _ _ _ scene => (scene, .returned)

theorem breadth_first_family : ∃ done later : Scene Nat Nat Memory,
    (planted (follow ignore 0) 0 1 "implementors" family).install (follow ignore 0) 3 1 7 =
      (done, .installed 2) ∧
    done.world.accepted.map (fun payload => payload.traitKey.text) = ["a", "b", "c", "d", "e"] ∧
    done.world.answers = [.buffered 0, .buffered 1, .queued, .queued, .queued] ∧
    (expect done (node ⟨⟨"f"⟩, .empty⟩ .returned family)).register (follow ignore 0) 5 1
      ⟨⟨"f"⟩, .empty⟩ = (later, .delivered) ∧
    later.registry.phase = .attached ⟨7, [], none, 11, 11⟩ := by
  obtain ⟨flushes, delivers⟩ := breadth_first ignore 0 1 7
  obtain ⟨done, installed, idle, world⟩ := flushes "implementors" family
  obtain ⟨later, registered, rests, _⟩ := delivers done (node ⟨⟨"f"⟩, .empty⟩ .returned family) 5 5
    idle (by rw [world])
  refine ⟨done, later, installed 3 (by decide), ?_, ?_, registered 5 (by decide), rests⟩
  · rw [world]
    rfl
  · rw [world]
    rfl

end Cascade

end ImplementorIndex
