import Arborist.Files.Path
import Arborist.Json.Basic
import Arborist.Toml.Document

/-!
# Configuration

A configuration names a preset, says where and how to look for tree files, and has a table for every
rule that it has something to say about.  It is read from a TOML document, in which unknown entries
do not matter.
-/

namespace Arborist

structure RunnerConfig where
  root : Path
  suffix : String
  exclude : List String
  keepGoing : Bool
  deriving DecidableEq, Repr

structure RuleConfig where
  enabled : Option Bool
  options : List (String × Toml)

structure Config where
  preset : Option String
  runner : RunnerConfig
  rules : Members RuleConfig

namespace RunnerConfig

/-- The suffix of tree files: the tree of `x` is in the file `x.ast.json`. -/
def defaultSuffix : String := ".ast.json"

def default : RunnerConfig := ⟨[Path.dot], defaultSuffix, [], false⟩

end RunnerConfig

def RuleConfig.strings (r : RuleConfig) (option : String) : List String :=
  match List.lookup option r.options with
  | some (.array items) => items.filterMap Toml.string?
  | _ => []

namespace Config

def default : Config := ⟨none, .default, []⟩

def rule? (c : Config) (name : String) : Option RuleConfig := Members.find? c.rules name

/-- Whether the rule `name` is enabled, which it is unless its table says otherwise. -/
def isEnabled (c : Config) (name : String) : Bool :=
  match c.rule? name with
  | some r => r.enabled.getD true
  | none => true

/-! ### Reading -/

/-- The name under which a date is kept where only text is.  `entries?` uses it to look at a date as
at a table, and `isDated` and `date?` make a date of such a table again. -/
def dateKey : String := "$__toml_private_datetime"

def entries? : Toml → Option (List (String × Toml))
  | .table entries => some entries
  | .datetime d => some [(dateKey, .string d.text)]
  | _ => none

def entryOr {α : Type} (entry : Option Toml) (absent : α) (decode : Toml → Option α) : Option α :=
  match entry with
  | none => some absent
  | some v => decode v

def decodeBool : Toml → Option Bool
  | .boolean b => some b
  | _ => none

def decodeStrings : Toml → Option (List String)
  | .array items => items.mapM Toml.string?
  | _ => none

def decodeRunnerFields (root suffix exclude keepGoing : Option Toml) : Option RunnerConfig := do
  return {
    root := ← entryOr root RunnerConfig.default.root fun v => v.string?.map Text.bytes
    suffix := ← entryOr suffix RunnerConfig.default.suffix Toml.string?
    exclude := ← entryOr exclude RunnerConfig.default.exclude decodeStrings
    keepGoing := ← entryOr keepGoing RunnerConfig.default.keepGoing decodeBool }

/-- Runner settings are given by name in a table, or by position in an array; what is missing is as
in `RunnerConfig.default`. -/
def decodeRunner (v : Toml) : Option RunnerConfig :=
  match v with
  | .array items => decodeRunnerFields items[0]? items[1]? items[2]? items[3]?
  | v => do
    let entries ← entries? v
    let named := fun name => List.lookup name entries
    decodeRunnerFields (named "root") (named "suffix") (named "exclude") (named "keep_going")

def isDated : List (String × Toml) → Bool
  | (name, _) :: _ => name = dateKey
  | [] => false

def date? : List (String × Toml) → Option Toml.Datetime
  | [(_, .string text)] => Toml.Datetime.ofText? text
  | _ => none

mutual

def decodeOption : Toml → Option Toml
  | .array items => do return .array (← decodeItems items)
  | .table entries =>
    if isDated entries then
      (date? entries).map .datetime
    else do return .table (← decodeOptions entries)
  | v => some v

def decodeItems : List Toml → Option (List Toml)
  | [] => some []
  | v :: items => do return (← decodeOption v) :: (← decodeItems items)

def decodeOptions : List (String × Toml) → Option (List (String × Toml))
  | [] => some []
  | (name, v) :: entries => do return (name, ← decodeOption v) :: (← decodeOptions entries)

end

def decodeRule (v : Toml) : Option RuleConfig := do
  let entries ← entries? v
  let enabled ← entryOr (List.lookup "enabled" entries) none fun v => (decodeBool v).map some
  return ⟨enabled, ← decodeOptions (entries.filter fun e => e.1 ≠ "enabled")⟩

def decodeRules (v : Toml) : Option (Members RuleConfig) := do
  let entries ← entries? v
  let rules ← entries.mapM fun e => do return (e.1, ← decodeRule e.2)
  return Members.ofList rules

/-- Why a text is no configuration: it is not TOML (`document`), or the entry `name` has a value
that does not belong there. -/
inductive Fault where
  | document (fault : Toml.Fault)
  | entry (name : String)
  deriving DecidableEq, Repr

def Fault.message : Fault → String
  | .document fault => fault.message
  | .entry name => "invalid value for `" ++ name ++ "`"

def decodeEntry {α : Type} (v : Toml) (name : String) (absent : α) (decode : Toml → Option α) :
    Except Fault α :=
  match entryOr (v.get? name) absent decode with
  | some a => .ok a
  | none => .error (.entry name)

def decode (v : Toml) : Except Fault Config := do
  return {
    preset := ← decodeEntry v "preset" none fun v => v.string?.map some
    runner := ← decodeEntry v "runner" .default decodeRunner
    rules := ← decodeEntry v "rules" [] decodeRules }

def parse (text : String) : Except Fault Config :=
  match Toml.parse text with
  | .error fault => .error (.document fault)
  | .ok v => decode v

/-! ### As JSON -/

mutual

def optionJson : Toml → Json
  | .string s => .string s
  | .integer n => .number (.integer n)
  | .float x => if x.isFinite then .number (.real x) else .null
  | .boolean b => .bool b
  | .datetime d => .object [(dateKey, .string d.text)]
  | .array items => .array (itemsJson items)
  | .table entries => .object (Members.ofList (entriesJson entries))

def itemsJson : List Toml → List Json
  | [] => []
  | v :: items => optionJson v :: itemsJson items

def entriesJson : List (String × Toml) → List (String × Json)
  | [] => []
  | (name, v) :: entries => (name, optionJson v) :: entriesJson entries

end

def runnerJson (r : RunnerConfig) : Json :=
  .ofMembers [("root", .string (Path.display r.root)), ("suffix", .string r.suffix),
    ("exclude", .ofStrings r.exclude), ("keep_going", .bool r.keepGoing)]

def ruleJson (r : RuleConfig) : Json :=
  let enabled :=
    match r.enabled with
    | some b => .bool b
    | none => .null
  .ofMembers (("enabled", enabled) :: entriesJson r.options)

def toJson (c : Config) : Json :=
  let preset :=
    match c.preset with
    | some p => .string p
    | none => .null
  .ofMembers [("preset", preset), ("runner", runnerJson c.runner),
    ("rules", .object (c.rules.map fun e => (e.1, ruleJson e.2)))]

end Config
end Arborist
