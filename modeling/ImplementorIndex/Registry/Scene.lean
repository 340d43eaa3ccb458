import ImplementorIndex.Registry.Basic

/-!
# Calls on a registry, one after the other

A scene is a registry together with the world that its consumers act on and the events noted so far.
Here the steps of a registry are put together to whole calls, each of which runs to its end before
the next begins. A consumer may use the registry it is called from; whatever it registers is handed
over by the call that is under way. Interleaved calls of several threads are not described here.
-/

namespace ImplementorIndex

structure Scene (ι τ σ : Type) where
  registry : Registry ι τ
  world : σ
  log : List Event := []

/-- How consumers take payloads: on a thread, a consumer takes a payload in a scene. -/
abbrev Acceptor (ι τ σ : Type) := τ → ι → Payload → Scene ι τ σ → Scene ι τ σ × Ending

namespace Scene

variable {ι τ σ : Type} [DecidableEq ι] [DecidableEq τ]

def note (scene : Scene ι τ σ) (event : Event) : Scene ι τ σ :=
  { scene with log := scene.log ++ [event] }

def deliver (accept : Acceptor ι τ σ) (me : τ) (consumer : ι) (payload : Payload)
    (scene : Scene ι τ σ) : Scene ι τ σ × Ending :=
  let (scene, ending) := accept me consumer payload scene
  let label := scene.registry.label
  match ending with
  | .returned => (scene.note (.delivered label payload.traitKey), ending)
  | .panicked cause =>
    (scene.note (.consumerPanicked label payload.traitKey cause.message), ending)

/-- Ends the hand-over under way and hands over what is queued, at most so many payloads. -/
def drain (accept : Acceptor ι τ σ) (me : τ) (consumer : ι) :
    Nat → Option Ending → Scene ι τ σ → Scene ι τ σ
  | 0, _, scene => scene
  | most + 1, last, scene =>
    let (registry, next) := scene.registry.advance last
    let scene := { scene with registry := registry }
    match next with
    | none => scene
    | some payload =>
      let (scene, ending) := deliver accept me consumer payload scene
      drain accept me consumer most (some ending) scene

/-- Delivers as the deliverer of the attached registry until its queue is idle. The consumer may
register at most `extra` payloads of its own meanwhile. -/
def pump (accept : Acceptor ι τ σ) (extra : Nat) (me : τ) (scene : Scene ι τ σ) : Scene ι τ σ :=
  match scene.registry.phase with
  | .awaiting _ => scene
  | .attached delivery =>
    drain accept me delivery.consumer (delivery.inflight.length + extra + 1) none scene

/-- Registers a payload. A caller that has to wait is told that its payload was delivered: the
deliverer hands it over before the call returns. -/
def register (accept : Acceptor ι τ σ) (extra : Nat) (me : τ) (payload : Payload)
    (scene : Scene ι τ σ) : Scene ι τ σ × Registration :=
  let (registry, receipt) := scene.registry.receive me payload
  let scene := { scene with registry := registry }
  match receipt with
  | .buffered position =>
    (scene.note (.buffered registry.label payload.traitKey payload.groups.namespaceCount position),
      .buffered position)
  | .deliver => (scene.pump accept extra me, .delivered)
  | .queued => (scene, .queued)
  | .wait _ => (scene, .delivered)

def install (accept : Acceptor ι τ σ) (extra : Nat) (me : τ) (consumer : ι)
    (scene : Scene ι τ σ) : Scene ι τ σ × Offer :=
  let (registry, offer) := scene.registry.offer me consumer
  let scene := { scene with registry := registry }
  match offer with
  | .installed flushed =>
    ((scene.note (.consumerAttached registry.label flushed)).pump accept extra me, offer)
  | .kept => (scene.note (.consumerKept registry.label), offer)
  | .rejected => (scene.note (.consumerRejected registry.label), offer)

end Scene

end ImplementorIndex
