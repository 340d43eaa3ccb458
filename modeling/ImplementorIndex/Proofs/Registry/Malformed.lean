import ImplementorIndex.Session.Run
import Mathlib.Data.List.Induction

/-!
# Malformed fragments are invisible

A fragment that cannot be read leaves a line in the log and nothing else, and nobody reads the log: a
call does the same in two scenes that differ only there, as long as the consumers do. So the malformed
fragments can be dropped from a sequence of calls, and all other calls go as they went.
-/

namespace ImplementorIndex

variable {ι τ σ : Type}

namespace Scene

/-- Two scenes that differ at most in their logs. -/
structure Alike (scene other : Scene ι τ σ) : Prop where
  registry : scene.registry = other.registry
  world : scene.world = other.world

structure Agree {α : Type} (done other : Scene ι τ σ × α) : Prop where
  scene : done.1.Alike other.1
  answer : done.2 = other.2

/-- Consumers that do the same whatever the log says. -/
def Blind (accept : Acceptor ι τ σ) : Prop :=
  ∀ (me : τ) (consumer : ι) (payload : Payload) {scene other : Scene ι τ σ}, scene.Alike other →
    Agree (accept me consumer payload scene) (accept me consumer payload other)

variable {scene other : Scene ι τ σ}

theorem Alike.refl (scene : Scene ι τ σ) : scene.Alike scene := ⟨rfl, rfl⟩

theorem Alike.symm (alike : scene.Alike other) : other.Alike scene :=
  ⟨alike.registry.symm, alike.world.symm⟩

theorem Alike.trans {third : Scene ι τ σ} (alike : scene.Alike other) (also : other.Alike third) :
    scene.Alike third :=
  ⟨alike.registry.trans also.registry, alike.world.trans also.world⟩

theorem Alike.note (alike : scene.Alike other) (event event' : Event) :
    (scene.note event).Alike (other.note event') :=
  ⟨alike.registry, alike.world⟩

theorem Alike.setRegistry (alike : scene.Alike other) (registry : Registry ι τ) :
    ({ scene with registry := registry } : Scene ι τ σ).Alike { other with registry := registry } :=
  ⟨rfl, alike.world⟩

namespace Blind

variable {accept : Acceptor ι τ σ}

theorem deliver (blind : Blind accept) (me : τ) (consumer : ι) (payload : Payload)
    (alike : scene.Alike other) :
    Agree (scene.deliver accept me consumer payload) (other.deliver accept me consumer payload) := by
  have after := blind me consumer payload alike
  unfold Scene.deliver
  dsimp only
  rw [← after.answer]
  cases (accept me consumer payload scene).2 with
  | returned => exact ⟨after.scene.note _ _, rfl⟩
  | panicked cause => exact ⟨after.scene.note _ _, rfl⟩

theorem drain (blind : Blind accept) (me : τ) (consumer : ι) (most : Nat) (last : Option Ending)
    (alike : scene.Alike other) :
    (scene.drain accept me consumer most last).Alike (other.drain accept me consumer most last) := by
  induction most generalizing scene other last with
  | zero => exact alike
  | succ most ih =>
    unfold Scene.drain
    rw [← alike.registry]
    rcases scene.registry.advance last with ⟨registry, next⟩
    cases next with
    | none => exact alike.setRegistry registry
    | some payload =>
      have after := blind.deliver me consumer payload (alike.setRegistry registry)
      dsimp only
      rw [← after.answer]
      exact ih _ after.scene

theorem pump (blind : Blind accept) (extra : Nat) (me : τ) (alike : scene.Alike other) :
    (scene.pump accept extra me).Alike (other.pump accept extra me) := by
  unfold Scene.pump
  rw [← alike.registry]
  cases scene.registry.phase with
  | awaiting pending => exact alike
  | attached delivery => exact blind.drain me _ _ none alike

theorem register [DecidableEq τ] (blind : Blind accept) (extra : Nat) (me : τ) (payload : Payload)
    (alike : scene.Alike other) :
    Agree (scene.register accept extra me payload) (other.register accept extra me payload) := by
  unfold Scene.register
  rw [← alike.registry]
  rcases scene.registry.receive me payload with ⟨registry, receipt⟩
  have entered := alike.setRegistry registry
  cases receipt with
  | buffered position => exact ⟨entered.note _ _, rfl⟩
  | deliver => exact ⟨blind.pump extra me entered, rfl⟩
  | queued => exact ⟨entered, rfl⟩
  | wait ticket => exact ⟨entered, rfl⟩

theorem install [DecidableEq ι] (blind : Blind accept) (extra : Nat) (me : τ) (consumer : ι)
    (alike : scene.Alike other) :
    Agree (scene.install accept extra me consumer) (other.install accept extra me consumer) := by
  unfold Scene.install
  rw [← alike.registry]
  rcases scene.registry.offer me consumer with ⟨registry, offer⟩
  have entered := alike.setRegistry registry
  cases offer with
  | installed flushed => exact ⟨blind.pump extra me (entered.note _ _), rfl⟩
  | kept => exact ⟨entered.note _ _, rfl⟩
  | rejected => exact ⟨entered.note _ _, rfl⟩

theorem registerFragment [DecidableEq τ] (blind : Blind accept) (extra : Nat) (me : τ) (key : TraitKey)
    (text : String) (alike : scene.Alike other) :
    Agree (scene.registerFragment accept extra me key text)
      (other.registerFragment accept extra me key text) := by
  unfold Scene.registerFragment
  cases Fragment.decode key text with
  | error problem => exact ⟨alike.note _ _, rfl⟩
  | ok payload =>
    have after := blind.register extra me payload alike
    exact ⟨after.scene, congrArg Except.ok after.answer⟩

end Blind

/-- A fragment that cannot be read is answered with the problem, and only the log tells of it. -/
theorem registerFragment_of_error [DecidableEq τ] (accept : Acceptor ι τ σ)
    (extra : Nat) (me : τ) {key : TraitKey} {text : String} {problem : Fragment.Malformed}
    (malformed : Fragment.decode key text = .error problem) (scene : Scene ι τ σ) :
    Agree (scene.registerFragment accept extra me key text) (scene, .error problem) := by
  simp only [Scene.registerFragment, malformed]
  exact ⟨⟨rfl, rfl⟩, rfl⟩

end Scene

theorem Fragment.exists_problem {key : TraitKey} {text : String}
    (unreadable : (decode key text).isOk = false) : ∃ problem, decode key text = .error problem := by
  cases decoded : decode key text with
  | error problem => exact ⟨problem, rfl⟩
  | ok payload =>
    rw [decoded] at unreadable
    cases unreadable

/-- The consumers that are pages, and how the others take payloads: they may act on the registry, on
pages and on the rest in any way, and end in any way. -/
structure Consumers (ι τ σ : Type) where
  isPage : ι → Bool
  take : τ → ι → Payload → Registry ι τ → (ι → Page) → σ →
    Logged (Registry ι τ × (ι → Page) × σ × Ending)

namespace Consumers

/-- What consumers act on: the pages among them, whatever else there is, and, for the record, the
consumer calls so far. -/
structure World (ι σ : Type) where
  pages : ι → Page
  rest : σ
  calls : List (ι × Payload) := []

/-- A call on a registry, or on a page. Attaching a page is installing it. -/
inductive Request (ι : Type) where
  | register (payload : Payload)
  | registerFragment (key : TraitKey) (text : String)
  | install (consumer : ι)
  | display (page : ι) (key : TraitKey)

inductive Outcome where
  | registration (outcome : Registration)
  | fragment (outcome : Except Fragment.Malformed Registration)
  | offer (outcome : Offer)
  | rendering (rendering : Rendering)

/-- A call that is no attempt to register a malformed fragment. -/
def Request.readable : Request ι → Bool
  | registerFragment key text => (Fragment.decode key text).isOk
  | _ => true

theorem Request.exists_of_unreadable {request : Request ι} (unreadable : request.readable = false) :
    ∃ key text problem, request = .registerFragment key text ∧
      Fragment.decode key text = .error problem := by
  cases request with
  | registerFragment key text =>
    obtain ⟨problem, malformed⟩ := Fragment.exists_problem unreadable
    exact ⟨key, text, problem, rfl, malformed⟩
  | _ => cases unreadable

variable [DecidableEq ι] (consumers : Consumers ι τ σ)

def accept : Acceptor ι τ (World ι σ) := fun me consumer payload scene =>
  let calls := scene.world.calls ++ [(consumer, payload)]
  if consumers.isPage consumer then
    let taken := (scene.world.pages consumer).accept payload
    let pages := Function.update scene.world.pages consumer taken.value
    (⟨scene.registry, ⟨pages, scene.world.rest, calls⟩, scene.log ++ taken.events⟩, .returned)
  else
    let taken := consumers.take me consumer payload scene.registry scene.world.pages scene.world.rest
    let (registry, pages, rest, ending) := taken.value
    (⟨registry, ⟨pages, rest, calls⟩, scene.log ++ taken.events⟩, ending)

theorem blind_accept : Scene.Blind consumers.accept := by
  intro me consumer payload scene other alike
  unfold accept
  rw [← alike.registry, ← alike.world]
  dsimp only
  split
  · exact ⟨⟨rfl, rfl⟩, rfl⟩
  · exact ⟨⟨rfl, rfl⟩, rfl⟩

variable [DecidableEq τ] (extra : Nat)

def perform (me : τ) (request : Request ι) (scene : Scene ι τ (World ι σ)) :
    Scene ι τ (World ι σ) × Outcome :=
  match request with
  | .register payload =>
    let (scene, outcome) := scene.register consumers.accept extra me payload
    (scene, .registration outcome)
  | .registerFragment key text =>
    let (scene, outcome) := scene.registerFragment consumers.accept extra me key text
    (scene, .fragment outcome)
  | .install consumer =>
    let (scene, outcome) := scene.install consumers.accept extra me consumer
    (scene, .offer outcome)
  | .display page key =>
    let shown := (scene.world.pages page).display key
    let pages := Function.update scene.world.pages page shown.value
    (⟨scene.registry, { scene.world with pages := pages }, scene.log ++ shown.events⟩,
      .rendering shown.value.rendered)

def performAll : List (τ × Request ι) → Scene ι τ (World ι σ) → Scene ι τ (World ι σ) × List Outcome
  | [], scene => (scene, [])
  | (me, request) :: rest, scene =>
    let (scene, outcome) := consumers.perform extra me request scene
    let (scene, outcomes) := performAll rest scene
    (scene, outcome :: outcomes)

variable {scene other : Scene ι τ (World ι σ)}

theorem agree_perform (me : τ) (request : Request ι) (alike : scene.Alike other) :
    Scene.Agree (consumers.perform extra me request scene)
      (consumers.perform extra me request other) := by
  cases request with
  | register payload =>
    have after := consumers.blind_accept.register extra me payload alike
    exact ⟨after.scene, congrArg Outcome.registration after.answer⟩
  | registerFragment key text =>
    have after := consumers.blind_accept.registerFragment extra me key text alike
    exact ⟨after.scene, congrArg Outcome.fragment after.answer⟩
  | install consumer =>
    have after := consumers.blind_accept.install extra me consumer alike
    exact ⟨after.scene, congrArg Outcome.offer after.answer⟩
  | display page key =>
    unfold perform
    rw [← alike.registry, ← alike.world]
    exact ⟨⟨rfl, rfl⟩, rfl⟩

theorem agree_perform_of_error (me : τ) {key : TraitKey} {text : String}
    {problem : Fragment.Malformed} (malformed : Fragment.decode key text = .error problem)
    (scene : Scene ι τ (World ι σ)) :
    Scene.Agree (consumers.perform extra me (.registerFragment key text) scene)
      (scene, .fragment (.error problem)) := by
  have after := scene.registerFragment_of_error consumers.accept extra me malformed
  exact ⟨after.scene, congrArg Outcome.fragment after.answer⟩

theorem performAll_append (earlier later : List (τ × Request ι)) (scene : Scene ι τ (World ι σ)) :
    consumers.performAll extra (earlier ++ later) scene =
      ((consumers.performAll extra later (consumers.performAll extra earlier scene).1).1,
        (consumers.performAll extra earlier scene).2 ++
          (consumers.performAll extra later (consumers.performAll extra earlier scene).1).2) := by
  induction earlier generalizing scene with
  | nil => rfl
  | cons first earlier ih => simp only [List.cons_append, performAll, ih]

theorem length_performAll (requests : List (τ × Request ι)) (scene : Scene ι τ (World ι σ)) :
    (consumers.performAll extra requests scene).2.length = requests.length := by
  induction requests generalizing scene with
  | nil => rfl
  | cons first rest ih => simp only [performAll, List.length_cons, ih]

/-- Without the malformed fragments, all other calls go as they went. -/
theorem agree_performAll_filter (requests : List (τ × Request ι)) (alike : scene.Alike other) :
    Scene.Agree (consumers.performAll extra (requests.filter fun one => one.2.readable) scene)
      ((consumers.performAll extra requests other).1,
        ((requests.zip (consumers.performAll extra requests other).2).filter fun one =>
          one.1.2.readable).map Prod.snd) := by
  -- Both sequences are followed at once. The log of the longer one gets ahead at each malformed
  -- fragment, and the scenes stay alike.
  induction requests generalizing scene other with
  | nil => exact ⟨alike, rfl⟩
  | cons first rest ih =>
    obtain ⟨me, request⟩ := first
    cases readable : request.readable with
    | true =>
      have after := consumers.agree_perform extra me request alike
      have later := ih after.scene
      simp only [List.filter_cons, readable, if_true, performAll, List.zip_cons_cons, List.map_cons]
      exact ⟨later.scene, congrArg₂ List.cons after.answer later.answer⟩
    | false =>
      obtain ⟨key, text, problem, rfl, malformed⟩ := Request.exists_of_unreadable readable
      have after := consumers.agree_perform_of_error extra me malformed other
      have later := ih (alike.trans after.scene.symm)
      simp only [List.filter_cons, readable, Bool.false_eq_true, if_false, performAll,
        List.zip_cons_cons]
      exact later

/-- Malformed fragments are invisible. In every sequence of calls, a fragment that cannot be read is
answered with the problem and leaves the registry and all that consumers act on as they were, the
record of consumer calls included. And without the malformed fragments every other call returns what
it returned, the consumers are called for the same payloads in the same order, and the registry and
the pages are the same in the end. This holds for all consumers and however many payloads they may
register during a call. -/
theorem malformed_invisible (requests : List (τ × Request ι)) (scene : Scene ι τ (World ι σ)) :
    (∀ earlier me key text later problem,
      requests = earlier ++ (me, .registerFragment key text) :: later →
      Fragment.decode key text = .error problem →
        let before := (consumers.performAll extra earlier scene).1
        let after := (consumers.performAll extra (earlier ++ [(me, .registerFragment key text)]) scene).1
        (consumers.performAll extra requests scene).2[earlier.length]? =
          some (.fragment (.error problem)) ∧
        after.registry = before.registry ∧ after.world = before.world) ∧
    let all := consumers.performAll extra requests scene
    let others := consumers.performAll extra (requests.filter fun one => one.2.readable) scene
    others.2 = ((requests.zip all.2).filter fun one => one.1.2.readable).map Prod.snd ∧
    others.1.world.calls = all.1.world.calls ∧
    others.1.registry = all.1.registry ∧
    others.1.world.pages = all.1.world.pages ∧
    others.1.world.rest = all.1.world.rest := by
  constructor
  · rintro earlier me key text later problem rfl malformed
    have after := consumers.agree_perform_of_error extra me malformed
      (consumers.performAll extra earlier scene).1
    have place := consumers.length_performAll extra earlier scene
    dsimp only
    rw [performAll_append, performAll_append]
    refine ⟨?_, after.scene.registry, after.scene.world⟩
    rw [← place, List.getElem?_append_right (Nat.le_refl _), Nat.sub_self]
    exact congrArg some after.answer
  · have same := consumers.agree_performAll_filter extra requests (.refl scene)
    have world := same.scene.world
    exact ⟨same.answer, congrArg World.calls world, same.scene.registry, congrArg World.pages world,
      congrArg World.rest world⟩

def allPages : Consumers Nat Unit Unit where
  isPage _ := true
  take _ _ _ registry pages rest := pure (registry, pages, rest, .returned)

/-- A page shows a trait and is attached, a fragment of the trait whose entry is a number comes in, and
a payload of the trait. -/
def numberForEntry : List (Unit × Request Nat) :=
  [((), .display 0 ⟨"Clone"⟩), ((), .install 0),
   ((), .registerFragment ⟨"Clone"⟩ "\x7b\"core\":[1]\x7d"), ((), .register ⟨⟨"Clone"⟩, .empty⟩)]

theorem malformed_invisible_numberForEntry :
    Fragment.decode ⟨"Clone"⟩ "\x7b\"core\":[1]\x7d" = .error (.notEntry 0 ⟨"core"⟩) ∧
    (allPages.performAll 0 numberForEntry ⟨{}, ⟨fun _ => {}, (), []⟩, []⟩).2[2]? =
      some (.fragment (.error (.notEntry 0 ⟨"core"⟩))) ∧
    (allPages.performAll 0 numberForEntry ⟨{}, ⟨fun _ => {}, (), []⟩, []⟩).1.world.calls =
      [(0, ⟨⟨"Clone"⟩, .empty⟩)] := by
  have malformed : Fragment.decode ⟨"Clone"⟩ "\x7b\"core\":[1]\x7d" =
      .error (.notEntry 0 ⟨"core"⟩) := by
    decide +kernel
  obtain ⟨rejected, _, calls, _⟩ :=
    allPages.malformed_invisible 0 numberForEntry ⟨{}, ⟨fun _ => {}, (), []⟩, []⟩
  have answer := rejected (numberForEntry.take 2) () _ _ (numberForEntry.drop 3) _ rfl malformed
  have kept : (numberForEntry.filter fun one => one.2.readable) =
      numberForEntry.take 2 ++ numberForEntry.drop 3 := by
    simp [numberForEntry, Request.readable, malformed, Except.isOk, Except.toBool]
  refine ⟨malformed, answer.1, ?_⟩
  rw [← calls, kept]
  rfl

end Consumers

namespace Session

def Step.readable : Step → Bool
  | registerFragment key text => (Fragment.decode key text).isOk
  | _ => true

def cleared (stage : Stage) : Stage :=
  { stage with world := { stage.world with happenings := [], spawned := [] }, log := [] }

theorem runStep_of_error {key : TraitKey} {text : String} {problem : Fragment.Malformed}
    (malformed : Fragment.decode key text = .error problem) (stage : Stage) :
    runStep (.registerFragment key text) stage =
      let event : Event := .fragmentRejected stage.registry.label key problem.message
      .ok ((cleared stage).note event,
        ⟨.malformed problem, stage.registry.snapshot, [], [], [event]⟩) := by
  simp only [runStep, perform, Scene.registerFragment, malformed]
  rfl

theorem runSteps_note_cleared (steps : List Step) (stage : Stage) (event : Event) :
    runSteps steps ((cleared stage).note event) = runSteps steps stage := by
  cases steps with
  | nil => rfl
  | cons step rest => rfl

theorem Step.exists_of_unreadable {step : Step} (unreadable : step.readable = false) :
    ∃ key text problem, step = .registerFragment key text ∧
      Fragment.decode key text = .error problem := by
  cases step with
  | registerFragment key text =>
    obtain ⟨problem, malformed⟩ := Fragment.exists_problem unreadable
    exact ⟨key, text, problem, rfl, malformed⟩
  | _ => cases unreadable

/-- Without the malformed fragments a session reports on every other step what it reported, word for
word, and it breaks off as it did. -/
theorem runSteps_filter (steps : List Step) (stage : Stage) :
    runSteps (steps.filter Step.readable) stage =
      (runSteps steps stage).map fun reports =>
        ((steps.zip reports).filter fun one => one.1.readable).map Prod.snd := by
  induction steps generalizing stage with
  | nil => rfl
  | cons step rest ih =>
    cases readable : step.readable with
    | true =>
      rw [List.filter_cons_of_pos readable, runSteps, runSteps]
      cases runStep step stage with
      | error cause => rfl
      | ok done =>
        obtain ⟨next, report⟩ := done
        simp only [bind, Except.bind, ih next]
        cases runSteps rest next with
        | error cause => rfl
        | ok reports => simp [Except.map, pure, Except.pure, readable]
    | false =>
      obtain ⟨key, text, problem, rfl, malformed⟩ := Step.exists_of_unreadable readable
      rw [List.filter_cons_of_neg (by simp [readable]), ih, runSteps, runStep_of_error malformed]
      simp only [bind, Except.bind, runSteps_note_cleared]
      cases runSteps rest stage with
      | error cause => rfl
      | ok reports => simp [Except.map, pure, Except.pure, readable]

end Session

end ImplementorIndex
