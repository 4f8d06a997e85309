import Arborist.Batch.Runner
import Arborist.Command.Arguments
import Arborist.Config.Selection
import Arborist.Text

/-!
# Checking from the command line

The configuration that applies is found first, then the rules are chosen, then the tree files are
checked.
-/

namespace Arborist.Command

structure Session where
  volume : Volume
  configDirectory : Option String
  home : Option Path

/-- The directory of the global configuration.  The `configDirectory` wins over the one below
`home`, and a home directory without a name is none. -/
def Session.globalDirectory (s : Session) : Option Path :=
  s.configDirectory.map Text.bytes <|> (s.home.filter (· ≠ [])).map (Path.join · ".treelint")

inductive Failure where
  | config (path : Path) (error : Config.Error)
  | make (error : BatchError)
  | run (error : BatchError)

def Failure.chain : Failure → List String
  | .config path error => ("Failed to load config: " ++ Path.display path) :: error.chain
  | .make error => "Failed to build batch runner" :: error.chain
  | .run error => "Batch run failed" :: error.chain

/-- The names in the list `filter`, which has commas between them.  Blanks around names and empty
names do not matter. -/
def filterNames (filter : String) : List String :=
  (((Text.cut ',' filter.toList).map Text.trim).filter fun cs => !cs.isEmpty).map String.ofList

namespace CheckOptions

def builtins (o : CheckOptions) (config : Config) : List Builtin :=
  match o.rules with
  | some filter => (filterNames filter).filterMap config.builtin?
  | none => config.selected

def rulesLog (o : CheckOptions) (config : Config) : List Log.Line :=
  match o.rules with
  | some filter =>
    ((filterNames filter).filter fun name => (config.builtin? name).isNone).map fun name =>
      Log.warn ("Unknown rule: " ++ name)
  | none => config.selectionLog

def settings (o : CheckOptions) : Settings where
  root := o.path
  suffix := o.suffix
  exclude := o.exclude
  keepGoing := if o.keepGoing then some true else none

def origin (o : CheckOptions) (s : Session) (explicit : Option Path) : Config.Origin :=
  Config.origin s.volume (o.path.getD [Path.dot]) explicit s.globalDirectory

def runner (o : CheckOptions) (s : Session) (config : Config) : Except BatchError Runner :=
  Runner.make s.volume config o.settings ((o.builtins config).map Builtin.rule)

/-- A check under the configuration `config`: what is said, and the report or what went wrong.
`check` is this with the configuration that `origin` leads to. -/
def checkUnder (o : CheckOptions) (s : Session) (config : Config) :
    List Log.Line × Except Failure BatchReport :=
  match o.runner s config with
  | .error e => (o.rulesLog config, .error (.make e))
  | .ok runner =>
    let survey := runner.survey s.volume
    (o.rulesLog config ++ Runner.makeLog config ((o.builtins config).map Builtin.name)
        ++ Log.info ("Checking " ++ Path.display runner.root ++ " with " ++
          toString runner.rules.length ++ " rules")
        :: survey.log runner.keepGoing runner.root,
      (survey.report runner.keepGoing).mapError .run)

def check (o : CheckOptions) (s : Session) (explicit : Option Path) :
    List Log.Line × Except Failure BatchReport :=
  let origin := o.origin s explicit
  match origin.load s.volume with
  | .error e => (origin.log, .error (.config (origin.path?.getD []) e))
  | .ok config =>
    let (log, result) := o.checkUnder s config
    (origin.log ++ log, result)

end CheckOptions
end Arborist.Command
