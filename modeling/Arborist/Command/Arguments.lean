import Arborist.Files.Path

/-!
# Command line arguments

A command line is read one argument at a time.  Switches that take a value may have it attached
(`--format=json`, `-fjson`, `-f=json`) or take the next argument, which then has to be no switch
itself.  A switch may be given once, except for `--exclude`; the two general ones may be given once
before the command and once after it, where the later one wins.  After `--` there are no switches
any more.
-/

namespace Arborist.Command

inductive OutputFormat where
  | text
  | json
  | compact
  deriving DecidableEq, Repr

def OutputFormat.ofName? : String → Option OutputFormat
  | "text" => some .text
  | "json" => some .json
  | "compact" => some .compact
  | _ => none

structure CheckOptions where
  path : Option Path
  format : OutputFormat
  rules : Option String
  exclude : List String
  suffix : Option String
  keepGoing : Bool
  deriving DecidableEq, Repr

inductive Request where
  | check (options : CheckOptions)
  | listRules
  | init (force : Bool)
  deriving DecidableEq, Repr

structure Invocation where
  verbose : Bool
  config : Option Path
  request : Request
  deriving DecidableEq, Repr

/-- Why arguments do not lead to a command: they are wrong (`usage`), or ask for information
only. -/
inductive Halt where
  | usage
  | version
  | help
  deriving DecidableEq, Repr

inductive Scope where
  | top
  | check
  | listRules
  | init
  deriving DecidableEq, Repr

inductive Switch where
  | verbose
  | config
  | format
  | rules
  | exclude
  | suffix
  | keepGoing
  | force
  | version
  | help
  deriving DecidableEq, Repr

namespace Switch

def ofLong? : String → Option Switch
  | "verbose" => some .verbose
  | "config" => some .config
  | "format" => some .format
  | "rules" => some .rules
  | "exclude" => some .exclude
  | "suffix" => some .suffix
  | "keep-going" => some .keepGoing
  | "force" => some .force
  | "version" => some .version
  | "help" => some .help
  | _ => none

def ofShort? : Char → Option Switch
  | 'v' => some .verbose
  | 'c' => some .config
  | 'f' => some .format
  | 'e' => some .exclude
  | 'V' => some .version
  | 'h' => some .help
  | _ => none

def takesValue : Switch → Bool
  | .config | .format | .rules | .exclude | .suffix => true
  | _ => false

def isKnownIn (s : Scope) : Switch → Bool
  | .verbose | .config | .help => true
  | .version => s = .top
  | .force => s = .init
  | .format | .rules | .exclude | .suffix | .keepGoing => s = .check

end Switch

/-- What has been read so far at one side of the command.  `readArguments` fills one draft before
the command and another one after it. -/
structure Draft where
  verbose : Bool := false
  config : Option Path := none
  path : Option Path := none
  format : Option OutputFormat := none
  rules : Option String := none
  exclude : List String := []
  suffix : Option String := none
  keepGoing : Bool := false
  force : Bool := false

namespace Draft

def fill {α : Type} (current : Option α) (value : α) : Except Halt (Option α) :=
  match current with
  | none => .ok (some value)
  | some _ => .error .usage

def fillPath (current : Option Path) (value : String) : Except Halt (Option Path) :=
  if value = "" then .error .usage else fill current (value : Path)

def raise (current : Bool) : Except Halt Bool :=
  if current then .error .usage else .ok true

def flag (d : Draft) : Switch → Except Halt Draft
  | .verbose => do return { d with verbose := ← raise d.verbose }
  | .keepGoing => do return { d with keepGoing := ← raise d.keepGoing }
  | .force => do return { d with force := ← raise d.force }
  | .version => .error .version
  | .help => .error .help
  | _ => .error .usage

def set (d : Draft) (value : String) : Switch → Except Halt Draft
  | .config => do return { d with config := ← fillPath d.config value }
  | .format =>
    match OutputFormat.ofName? value with
    | some f => do return { d with format := ← fill d.format f }
    | none => .error .usage
  | .rules => do return { d with rules := ← fill d.rules value }
  | .exclude => .ok { d with exclude := d.exclude ++ [value] }
  | .suffix => do return { d with suffix := ← fill d.suffix value }
  | _ => .error .usage

/-- An argument that belongs to no switch.  Only `Scope.check` takes one, as its path. -/
def word (d : Draft) (value : String) : Scope → Except Halt Draft
  | .check => do return { d with path := ← fillPath d.path value }
  | _ => .error .usage

/-- Switches of one letter, written together.  The first one with a value takes all the rest for it,
with or without an equals sign in front, or else still waits for the next argument and is given
back. -/
def letters (s : Scope) (d : Draft) : List Char → Except Halt (Draft × Option Switch)
  | [] => .ok (d, none)
  | c :: cs =>
    match (Switch.ofShort? c).filter (Switch.isKnownIn s) with
    | none => .error .usage
    | some w =>
      if w.takesValue then
        match cs with
        | [] => .ok (d, some w)
        | '=' :: value => do return (← d.set (String.ofList value) w, none)
        | value => do return (← d.set (String.ofList value) w, none)
      else do
        letters s (← d.flag w) cs

def long (s : Scope) (d : Draft) (cs : List Char) : Except Halt (Draft × Option Switch) :=
  let name := String.ofList (cs.takeWhile (· ≠ '='))
  match (Switch.ofLong? name).filter (Switch.isKnownIn s), cs.dropWhile (· ≠ '=') with
  | none, _ => .error .usage
  | some w, [] => if w.takesValue then .ok (d, some w) else do return (← d.flag w, none)
  | some w, _ :: value => do return (← d.set (String.ofList value) w, none)

/-- One argument that may be a switch: `long` after two dashes, `letters` after one.  It is none if
it does not begin with a dash or is just that. -/
def switch? (s : Scope) (d : Draft) (arg : String) : Option (Except Halt (Draft × Option Switch)) :=
  match arg.toList with
  | '-' :: '-' :: cs => some (d.long s cs)
  | '-' :: c :: cs => some (d.letters s (c :: cs))
  | _ => none

end Draft

/-- The arguments after a command, the first of them perhaps the value that the switch `waiting`
waits for.  After `--` every argument is a `word`. -/
def readAfter (s : Scope) (waiting : Option Switch) (d : Draft) : List String → Except Halt Draft
  | [] => if waiting.isSome then .error .usage else .ok d
  | arg :: rest =>
    if arg = "--" then
      if waiting.isSome then .error .usage else rest.foldlM (fun d arg => d.word arg s) d
    else
      match d.switch? s arg, waiting with
      | some _, some _ => .error .usage
      | some result, none => do
        let (d, waiting) ← result
        readAfter s waiting d rest
      | none, some w => do readAfter s none (← d.set arg w) rest
      | none, none => do readAfter s none (← d.word arg s) rest

def Scope.ofName? : String → Option Scope
  | "check" => some .check
  | "list-rules" => some .listRules
  | "init" => some .init
  | _ => none

def readHelp : List String → Halt
  | [] => .help
  | [name] => if (Scope.ofName? name).isSome || name = "help" then .help else .usage
  | _ => .usage

/-- The arguments up to the command: what they say, the scope of the command, and the arguments
after it.  They are read as in `readAfter`, but there is no `--` and a word has to be a command. -/
def readBefore (waiting : Option Switch) (d : Draft) :
    List String → Except Halt (Draft × Scope × List String)
  | [] => .error .usage
  | arg :: rest =>
    if arg = "--" then .error .usage
    else
      match d.switch? .top arg, waiting with
      | some _, some _ => .error .usage
      | some result, none => do
        let (d, waiting) ← result
        readBefore waiting d rest
      | none, some w => do readBefore none (← d.set arg w) rest
      | none, none =>
        match Scope.ofName? arg with
        | some s => .ok (d, s, rest)
        | none => .error (if arg = "help" then readHelp rest else .usage)

def Draft.request (d : Draft) : Scope → Request
  | .top | .check => .check ⟨d.path, d.format.getD .text, d.rules, d.exclude, d.suffix, d.keepGoing⟩
  | .listRules => .listRules
  | .init => .init d.force

def readArguments (args : List String) : Except Halt Invocation := do
  let (before, scope, rest) ← readBefore none {} args
  let after ← readAfter scope none {} rest
  return ⟨before.verbose || after.verbose, after.config <|> before.config, after.request scope⟩

end Arborist.Command
