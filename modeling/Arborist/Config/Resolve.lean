import Arborist.Config.Basic
import Arborist.Files.Volume
import Arborist.Log

/-!
# The configuration that applies

A configuration file given by hand applies.  Otherwise it is the one in the nearest directory from
the place of the scan upwards that has one, otherwise the global one, and without any of them the
default configuration.  One file is chosen, and whatever is wrong with it is the answer: there is no
falling through to the next.
-/

namespace Arborist.Config

inductive Error where
  | unreadable (path : Path) (fault : Volume.Fault)
  | malformed (fault : Fault)
  deriving DecidableEq, Repr

namespace Error

def message : Error → String
  | .unreadable path fault =>
      "Failed to read config file " ++ Path.display path ++ ": " ++ fault.message
  | .malformed fault => "Failed to parse config: " ++ fault.message

def chain (e : Error) : List String :=
  match e with
  | .unreadable _ fault => [e.message, fault.message]
  | .malformed _ => [e.message]

end Error

/-- Where a configuration comes from.  `origin` looks for it, and `Origin.load` reads it. -/
inductive Origin where
  | explicit (path : Path)
  | project (path : Path)
  | global (path : Path)
  | builtin
  deriving DecidableEq, Repr

def projectNames : List Name := ["treelint.toml", ".treelint.toml"]

def globalName : Name := "config.toml"

/-- The project configurations that a scan of `scanRoot` could have: every one of the `projectNames`
in the root and in the directories above it, the nearest first.  A root that does not exist is taken
as it is written. -/
def projectCandidates (volume : Volume) (scanRoot : Path) : List Path :=
  let start :=
    match volume.canonical scanRoot with
    | .ok path => path
    | .error _ => scanRoot
  (Path.ancestors start).flatMap fun directory => projectNames.map (Path.join directory)

/-- The configuration that applies to a scan: the `explicit` one, or else the first of the
`projectCandidates` that is a file, or else the one in `globalDirectory`.  What a file says does not
matter for the choice. -/
def origin (volume : Volume) (scanRoot : Path) (explicit globalDirectory : Option Path) : Origin :=
  match explicit with
  | some path => .explicit path
  | none =>
    match (projectCandidates volume scanRoot).find? volume.isFile with
    | some path => .project path
    | none =>
      match (globalDirectory.map (Path.join · globalName)).filter volume.isFile with
      | some path => .global path
      | none => .builtin

def ofFile (volume : Volume) (path : Path) : Except Error Config :=
  match volume.readText path with
  | .error fault => .error (.unreadable path fault)
  | .ok text =>
    match parse text with
    | .ok c => .ok c
    | .error fault => .error (.malformed fault)

/-- The configuration in the file `path`, with a relative root taken from the directory of the
file. -/
def anchored (path : Path) (c : Config) : Config :=
  match Path.parent? path with
  | none => c
  | some directory =>
      { c with runner := { c.runner with root := Path.join directory c.runner.root } }

namespace Origin

def path? : Origin → Option Path
  | .explicit path => some path
  | .project path => some path
  | .global path => some path
  | .builtin => none

/-- The configuration itself.  Explicit ones and those of projects are `anchored`, but the root of a
global one is left as it is. -/
def load (volume : Volume) : Origin → Except Error Config
  | .explicit path => (ofFile volume path).map (anchored path)
  | .project path => (ofFile volume path).map (anchored path)
  | .global path => ofFile volume path
  | .builtin => .ok .default

def log : Origin → List Log.Line
  | .explicit _ => []
  | .project path => [Log.debug ("Found project config: " ++ Path.display path)]
  | .global path => [Log.info ("Using global config: " ++ Path.display path)]
  | .builtin => []

end Origin
end Arborist.Config
