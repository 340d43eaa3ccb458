import ImplementorIndex.Arguments.Reader
import ImplementorIndex.Command
import ImplementorIndex.Config

/-!
# The program

From the arguments and the files of the working directory to what is printed and how the program
ends. Arguments come first, then the configuration, then the task; options on the line win over the
configuration.
-/

namespace ImplementorIndex.Program

open Arguments (Request Refusal Task)
open Files (Node)

inductive Outcome where
  | refused (refusal : Refusal)
  | failed (failure : Failure)
  | finished (report : Command.Report)
deriving DecidableEq

def versionLine : String := "implidx 0.1.0\n"

def helpText : String :=
  "Inspect trait implementor fragments the way the doc viewer merges them\n\n" ++
  "Usage: implidx [OPTIONS] <COMMAND>\n\n" ++
  "Commands:\n" ++
  "  show <TRAIT>   Render the Implementors section for a trait\n" ++
  "  check          Decode every fragment and report malformed ones\n" ++
  "  traits         List known traits with namespace and entry counts\n\n" ++
  "Options:\n" ++
  "  -c, --config <FILE>            Config file\n" ++
  "  -r, --root <DIR>               Fragment root directory\n" ++
  "  -v, --verbose                  Verbose logging\n" ++
  "      --attach-after <N>         show: attach the page after N fragments\n" ++
  "      --skip-namespace <NAME>    show: omit a namespace\n" ++
  "  -h, --help                     Print help\n" ++
  "  -V, --version                  Print version\n"

namespace Outcome

/-- The exit code: two for arguments that make no sense, one for a failure or a fragment that could
not be loaded. -/
def exitCode : Outcome → Nat
  | refused .usage => 2
  | refused _ => 0
  | failed _ => 1
  | finished report => if report.ok then 0 else 1

def output : Outcome → String
  | refused .help => helpText
  | refused .version => versionLine
  | refused .usage => ""
  | failed _ => ""
  | finished report => report.output

def complaint : Outcome → String
  | refused .usage => "error: the arguments make no sense\n\n" ++ helpText
  | failed failure => failure.report
  | _ => ""

end Outcome

/-- The options of the page for a task. A namespace to skip wins over the configured one. -/
def pageOptions (config : Config) (skip : Option Namespace) : RenderOptions :=
  { config.page with skip := skip.or config.page.skip }

def perform (top : Node) (config : Config) : Task → Logged (Except Failure Command.Report)
  | .render key attachAfter skip =>
    Command.showTrait top config.root key attachAfter (pageOptions config skip)
  | .check => Command.checkAll top config.root
  | .list => Command.listTraits top config.root

/-- The configuration of a request. A root that is asked for wins over the configured one. -/
def configure (top : Node) (request : Request) : Logged (Except Failure Config) := do
  match ← Config.load top request.config with
  | .error failure => pure (.error failure)
  | .ok config => pure (.ok { config with root := request.root.getD config.root })

def answer (top : Node) (request : Request) : Logged (Except Failure Command.Report) := do
  match ← configure top request with
  | .error failure => pure (.error failure)
  | .ok config => perform top config request.task

/-- Runs the program on the files of the working directory. -/
def run (top : Node) (arguments : List String) : Logged Outcome := do
  match Arguments.read arguments with
  | .error refusal => pure (.refused refusal)
  | .ok request =>
    match ← answer top request with
    | .error failure => pure (.failed failure)
    | .ok report => pure (.finished report)

end ImplementorIndex.Program
