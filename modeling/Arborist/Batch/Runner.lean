import Arborist.Batch.Discovery
import Arborist.Batch.Finding
import Arborist.Config.Resolve
import Arborist.Pattern
import Arborist.Rule.Dispatch
import Arborist.Tree.Decode

/-!
# Checking all tree files of a directory

A `Runner` is made from settings and a configuration.  It finds tree files, leaves out those that
an exclude pattern accepts, and checks the others one by one.  Every file is good, malformed or
unreadable on its own (`Outcome`), and the result of a run is put together from the outcomes alone.
A run that cannot find its files to the end fails with that, whatever is in them.
-/

namespace Arborist

/-- What can stop a run.  `glob` is about the pattern that tree files are looked for with, and
`pattern` about one that excludes files; `io` is about a path that the system refuses or a tree file
that it cannot read. -/
inductive BatchError where
  | io (path : Path) (fault : Volume.Fault)
  | parse (path : Path) (error : TreeError)
  | glob (fault : Pattern.Fault)
  | pattern (text : String) (fault : Pattern.Fault)
  | notADirectory (path : Path)
  | emptySuffix
  | config (error : Config.Error)

namespace BatchError

def message : BatchError → String
  | .io path fault => "IO error at " ++ Path.display path ++ ": " ++ fault.message
  | .parse path error => "Malformed tree in " ++ Path.display path ++ ": " ++ error.message
  | .glob fault => "Invalid discovery glob: " ++ fault.message
  | .pattern text fault => "Invalid exclude pattern `" ++ text ++ "`: " ++ fault.message
  | .notADirectory path => "Not a directory: " ++ Path.display path
  | .emptySuffix => "Tree file suffix must not be empty"
  | .config error => "Configuration error: " ++ error.message

def code : BatchError → String
  | .io _ _ => "treelint::batch::io"
  | .parse _ _ => "treelint::batch::parse"
  | .glob _ => "treelint::batch::glob"
  | .pattern _ _ => "treelint::batch::pattern"
  | .notADirectory _ => "treelint::batch::not_a_directory"
  | .emptySuffix => "treelint::batch::suffix"
  | .config _ => "treelint::batch::config"

def help? : BatchError → Option String
  | .parse _ _ => some "pass --keep-going to skip malformed files"
  | _ => none

def chain (e : BatchError) : List String :=
  e.message ::
    match e with
    | .io _ fault => [fault.message]
    | .parse _ error => error.message :: error.cause?.toList
    | .glob fault => [fault.message]
    | .pattern _ fault => [fault.message]
    | .notADirectory _ => []
    | .emptySuffix => []
    | .config error => error.chain

end BatchError

/-- What is asked for besides the configuration.  A setting that is there wins over the one in
`Config.runner`; exclude patterns add up. -/
structure Settings where
  root : Option Path
  suffix : Option String
  exclude : List String
  keepGoing : Option Bool
  deriving DecidableEq, Repr

structure Runner : Type 1 where
  root : Path
  suffix : String
  rules : List Rule
  exclude : List Pattern
  keepGoing : Bool

inductive Outcome where
  | good (findings : List Finding)
  | malformed (error : TreeError)
  | unreadable (fault : Volume.Fault)

structure Checked where
  path : Path
  outcome : Outcome

/-- Everything a run comes to know, before `report` decides what to make of it: the `excluded`
files, the others with what checking them came to, and the `failure` that kept the rest from being
found. -/
structure Survey where
  excluded : List Path
  failure : Option BatchError
  checked : List Checked

namespace Runner

/-! ### Making a runner -/

def compileExclude (text : String) : Except BatchError Pattern :=
  match Pattern.compile text with
  | .ok p => .ok p
  | .error fault => .error (.pattern text fault)

def resolveRoot (volume : Volume) (root : Path) : Except BatchError Path :=
  match volume.canonical root with
  | .error fault => .error (.io root fault)
  | .ok path => if volume.isDirectory path then .ok path else .error (.notADirectory path)

/-- A runner with those of the `rules` that `config` does not disable.  The root has to exist and to
be a directory, and exclude patterns from the settings come before those of the configuration. -/
def make (volume : Volume) (config : Config) (settings : Settings) (rules : List Rule) :
    Except BatchError Runner :=
  let suffix := settings.suffix.getD config.runner.suffix
  match resolveRoot volume (settings.root.getD config.runner.root) with
  | .error e => .error e
  | .ok root =>
    if suffix = "" then .error .emptySuffix
    else
      match (settings.exclude ++ config.runner.exclude).mapM compileExclude with
      | .error e => .error e
      | .ok exclude =>
        .ok {
          root, suffix, exclude
          rules := rules.filter fun r => config.isEnabled r.name
          keepGoing := settings.keepGoing.getD config.runner.keepGoing }

def makeLog (config : Config) (names : List String) : List Log.Line :=
  (names.filter fun name => !config.isEnabled name).map fun name =>
    Log.debug ("Skipping disabled rule: " ++ name)

/-! ### Running -/

def excludes (r : Runner) (file : Path) : Bool :=
  r.exclude.any fun p => p.accepts .standard (Discovery.relativePath r.root file)

def search (volume : Volume) (r : Runner) : List Path × Option BatchError :=
  match Discovery.search volume r.root r.suffix with
  | .error fault => ([], some (.glob fault))
  | .ok (paths, trouble) => (paths, trouble.map fun t => .io t.path t.fault)

def candidates (volume : Volume) (r : Runner) : List Path := (r.search volume).1

def failure (volume : Volume) (r : Runner) : Option BatchError := (r.search volume).2

def split (volume : Volume) (r : Runner) : List Path × List Path :=
  (r.candidates volume).partition r.excludes

def files (volume : Volume) (r : Runner) : List Path := (r.split volume).2

theorem files_eq (volume : Volume) (r : Runner) :
    r.files volume = (r.candidates volume).filter fun file => !r.excludes file := by
  rw [files, split, List.partition_eq_filter_filter]
  rfl

/-- The tree files that a run checks, or the `failure` of the search for them.  Files that were
found before a failure are not checked either. -/
def discover (volume : Volume) (r : Runner) : Except BatchError (List Path) :=
  match r.failure volume with
  | some e => .error e
  | none => .ok (r.files volume)

def checkText (r : Runner) (source text : String) : Outcome :=
  match Node.parse text with
  | .error e => .malformed e
  | .ok root => .good ((Rule.reports r.rules root).toList.map (Finding.ofReport source))

def sourceOf (r : Runner) (file : Path) : String :=
  Discovery.sourcePath r.suffix (Discovery.relativePath r.root file)

def check (volume : Volume) (r : Runner) (file : Path) : Checked :=
  ⟨file,
    match volume.readText file with
    | .error fault => .unreadable fault
    | .ok text => r.checkText (r.sourceOf file) text⟩

def survey (volume : Volume) (r : Runner) : Survey :=
  ⟨(r.split volume).1, r.failure volume, (r.files volume).map (r.check volume)⟩

end Runner

namespace Survey

/-- The report on checked files, or the first error among them.  A file that cannot be read is
always an error, and a malformed one is an error unless `keepGoing`. -/
def collect (keepGoing : Bool) : List Checked → Except BatchError BatchReport
  | [] => .ok .empty
  | ⟨path, .unreadable fault⟩ :: _ => .error (.io path fault)
  | ⟨path, .malformed e⟩ :: rest =>
    if keepGoing then do
      let r ← collect keepGoing rest
      return { r with skipped := r.skipped + 1 }
    else .error (.parse path e)
  | ⟨_, .good findings⟩ :: rest => do
    let r ← collect keepGoing rest
    return { r with results := findings ++ r.results, checked := r.checked + 1 }

def report (keepGoing : Bool) (s : Survey) : Except BatchError BatchReport :=
  match s.failure with
  | some e => .error e
  | none => collect keepGoing s.checked

def fileLog (keepGoing : Bool) : List Checked → List Log.Line
  | [] => []
  | c :: rest =>
    Log.debug ("Checking: " ++ Path.display c.path) ::
      match c.outcome with
      | .unreadable _ => []
      | .malformed e =>
        if keepGoing then
          Log.warn ("Skipping malformed tree " ++ Path.display c.path ++ ": " ++ e.message)
            :: fileLog keepGoing rest
        else []
      | .good _ => fileLog keepGoing rest

/-- What is said during a run.  The files are counted only if there was no `failure`, and then each
of them is named up to the first error, as in `collect`. -/
def log (keepGoing : Bool) (root : Path) (s : Survey) : List Log.Line :=
  Log.info ("Starting batch at " ++ Path.display root)
    :: s.excluded.map (fun path => Log.debug ("Excluding: " ++ Path.display path))
    ++ if s.failure.isSome then [] else
      Log.info ("Found " ++ toString s.checked.length ++ " tree files to check")
        :: fileLog keepGoing s.checked
        ++ match s.report keepGoing with
          | .error _ => []
          | .ok r =>
            [Log.info ("Batch complete: " ++ toString r.results.length ++ " findings in "
              ++ toString r.checked ++ " files (" ++ toString r.skipped ++ " skipped)")]

end Survey

namespace Runner

def run (volume : Volume) (r : Runner) : Except BatchError BatchReport :=
  (r.survey volume).report r.keepGoing

end Runner

def checkAll (volume : Volume) (rules : List Rule) (root : Path) :
    Except BatchError (List Finding) :=
  let settings : Settings := ⟨some root, some RunnerConfig.defaultSuffix, [], none⟩
  match Runner.make volume .default settings rules with
  | .error e => .error e
  | .ok r =>
    match r.run volume with
    | .error e => .error e
    | .ok report => .ok report.results

end Arborist
