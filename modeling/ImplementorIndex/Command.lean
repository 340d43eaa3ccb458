import ImplementorIndex.Failure
import ImplementorIndex.Fragment.Tree
import ImplementorIndex.Page
import ImplementorIndex.Registry.Scene

/-!
# Commands

The three things to do with a fragment tree: render the section of a trait as a page would show it,
check every fragment, and list the traits. Each command gives the text to print and whether it found
the tree in order.
-/

namespace ImplementorIndex.Command

open Files (Node)
open Fragment (LoadReport)

/-- What a command prints, and whether every fragment could be loaded. -/
structure Report where
  output : String
  ok : Bool
deriving DecidableEq

def loadTree (top : Node) (root : Path) : Logged (Except Failure LoadReport) := do
  match ← Fragment.scan top root with
  | .error problem => pure (.error (.scan root problem))
  | .ok tree =>
    if tree.files.isEmpty then Logged.note (.treeEmpty root.text)
    let report ← tree.load top
    pure (.ok report)

/-- Replays have one consumer, a page, and one thread. -/
abbrev Replay := Scene Unit Unit Page

/-- The page takes payloads and registers none of its own. -/
def pageAccepts : Acceptor Unit Unit Page := fun _ _ payload replay =>
  let taken := replay.world.accept payload
  ({ replay with world := taken.value, log := replay.log ++ taken.events }, .returned)

def registerAll (payloads : List Payload) (replay : Replay) : Replay :=
  payloads.foldl (fun replay payload => (replay.register pageAccepts 0 () payload).1) replay

/-- Attaches the page, unless the registry turns it away. What was noted until then stays. -/
def attach (replay : Replay) : Replay × Except Failure Unit :=
  match replay.install pageAccepts 0 () () with
  | (replay, .installed flushed) => (replay.note (.pageAttached flushed), .ok ())
  | (replay, .kept) => (replay, .ok ())
  | (replay, .rejected) => (replay, .error (.pageRefused replay.registry.rejection))

def start (page : Logged Page) : Replay :=
  { registry := {}, world := page.value, log := page.events }

/-- Registers payloads, with the page attached after so many of them, or at the end if there are
fewer or no number is given. -/
def replay (page : Logged Page) (payloads : List Payload) (attachAfter : Option Nat) :
    Replay × Except Failure Unit :=
  let before := attachAfter.getD payloads.length
  match attach (registerAll (payloads.take before) (start page)) with
  | (replay, .error failure) => (replay, .error failure)
  | (replay, .ok ()) => (registerAll (payloads.drop before) replay, .ok ())

/-- Renders the section of a trait as a page shows it once all fragments have been registered. -/
def renderSection (report : LoadReport) (key : TraitKey) (attachAfter : Option Nat)
    (options : RenderOptions) : Logged (Except Failure Report) :=
  let page := ({ options := options } : Page).display key
  match replay page report.payloads attachAfter with
  | (done, .error failure) => ⟨.error failure, done.log⟩
  | (done, .ok ()) =>
    let counters := done.registry.counters
    ⟨.ok { output := done.world.rendered.html ++ "\n", ok := report.isClean },
      done.log ++ [.replayed counters.registered counters.buffered counters.delivered]⟩

def checkLines (report : LoadReport) : Report :=
  let lines := report.failures.map fun failure =>
    failure.1.text ++ ": " ++ failure.2.message ++ "\n"
  let total := toString report.payloads.length ++ " fragment(s) ok, " ++
    toString report.failures.length ++ " rejected\n"
  { output := String.join lines ++ total, ok := report.isClean }

def traitLine (line : TraitSummary) : String :=
  line.traitKey.text ++ "\t" ++ toString line.namespaces ++ "\t" ++ toString line.entries ++ "\n"

def traitLines (report : LoadReport) : Logged (Except Failure Report) :=
  match replay (pure {}) report.payloads (some 0) with
  | (done, .error failure) => ⟨.error failure, done.log⟩
  | (done, .ok ()) =>
    ⟨.ok { output := String.join (done.world.summary.map traitLine), ok := report.isClean },
      done.log⟩

def withTree (top : Node) (root : Path) (next : LoadReport → Logged (Except Failure Report)) :
    Logged (Except Failure Report) := do
  match ← loadTree top root with
  | .error failure => pure (.error failure)
  | .ok report => next report

def showTrait (top : Node) (root : Path) (key : TraitKey) (attachAfter : Option Nat)
    (options : RenderOptions) : Logged (Except Failure Report) :=
  withTree top root fun report => renderSection report key attachAfter options

def checkAll (top : Node) (root : Path) : Logged (Except Failure Report) :=
  withTree top root fun report => pure (.ok (checkLines report))

def listTraits (top : Node) (root : Path) : Logged (Except Failure Report) :=
  withTree top root traitLines

end ImplementorIndex.Command
