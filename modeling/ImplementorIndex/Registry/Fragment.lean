import ImplementorIndex.Fragment.Reader
import ImplementorIndex.Registry.Scene

/-!
# Registering fragments

A fragment is read first and registered only if it can be read. A malformed one never reaches the
registry; it is noted and reported to the caller.
-/

namespace ImplementorIndex.Scene

variable {ι τ σ : Type} [DecidableEq ι] [DecidableEq τ]

/-- Reads a fragment and registers its payload. -/
def registerFragment (accept : Acceptor ι τ σ) (extra : Nat) (me : τ) (key : TraitKey)
    (text : String) (scene : Scene ι τ σ) :
    Scene ι τ σ × Except Fragment.Malformed Registration :=
  match Fragment.decode key text with
  | .ok payload =>
    let (scene, registration) := scene.register accept extra me payload
    (scene, .ok registration)
  | .error problem =>
    (scene.note (.fragmentRejected scene.registry.label key problem.message), .error problem)

end ImplementorIndex.Scene
