import Arborist.Command.Check
import Arborist.Command.Init
import Arborist.Command.ListRules
import Arborist.Command.Output

/-!
# Running a command line

From arguments and files to what is printed, the exit code and the files afterwards.
-/

namespace Arborist.Command

/-- What a command answers, with the volume as it is afterwards.  `failure` is the text of an error,
or empty. -/
structure Response where
  exit : Nat
  output : String
  failure : String
  log : List Log.Line
  volume : Volume

def versionText : String := Text.lines ["treelint 0.1.0"]

def helpText : String := Text.lines [
  "Usage: treelint [OPTIONS] <COMMAND>",
  "",
  "Commands:",
  "  check       Check the tree files below a directory",
  "  list-rules  List the rules",
  "  init        Write a configuration file",
  "",
  "Options:",
  "  -v, --verbose        Say more",
  "  -c, --config <FILE>  Use this configuration",
  "  -h, --help           Print this text",
  "  -V, --version        Print the version"]

def Response.ofText (volume : Volume) (output : String) : Response := ⟨0, output, "", [], volume⟩

def Response.ofError (volume : Volume) (log : List Log.Line) (chain : List String) : Response :=
  ⟨1, "", errorText chain, log, volume⟩

/-- Carries out a command.  Findings and errors make the exit code 1. -/
def Invocation.run (i : Invocation) (s : Session) : Response :=
  match i.request with
  | .check o =>
    let (log, result) := o.check s i.config
    match result with
    | .error failure => .ofError s.volume (Log.shown i.verbose log) failure.chain
    | .ok report =>
        ⟨if report.hasFindings then 1 else 0, o.format.print report, "",
          Log.shown i.verbose log, s.volume⟩
  | .listRules => .ofText s.volume ruleList
  | .init force =>
    match writeInitial s.volume force with
    | .error chain => .ofError s.volume [] chain
    | .ok volume => .ofText volume initText

def usageExit : Nat := 2

/-- Carries out the command line `args`, unless its arguments are wrong.  A command line that asks
for information only is answered like any other. -/
def run (s : Session) (args : List String) : Option Response :=
  match readArguments args with
  | .ok i => some (i.run s)
  | .error .version => some (.ofText s.volume versionText)
  | .error .help => some (.ofText s.volume helpText)
  | .error .usage => none

end Arborist.Command
