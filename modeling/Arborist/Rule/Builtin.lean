import Arborist.Rule.AwaitInLoop
import Arborist.Rule.Debugger
import Arborist.Rule.Eval
import Arborist.Rule.NewArray

/-!
# Built-in rules and presets
-/

namespace Arborist

inductive Builtin where
  | newArray
  | debugger
  | eval (callees : List String)
  | awaitInLoop
  deriving DecidableEq, Repr

namespace Builtin

def rule : Builtin → Rule
  | .newArray => Rule.NewArray.rule
  | .debugger => Rule.Debugger.rule
  | .eval callees => Rule.Eval.rule callees
  | .awaitInLoop => Rule.AwaitInLoop.rule

def name (b : Builtin) : String := b.rule.name

def description (b : Builtin) : String := b.rule.description

def all : List Builtin := [.newArray, .debugger, .eval Rule.Eval.defaultCallees, .awaitInLoop]

def names : List String := all.map name

/-- The built-in rule of a name.  Without any `callees` the rule on eval keeps to
`Rule.Eval.defaultCallees`. -/
def ofName? (name : String) (callees : List String) : Option Builtin :=
  (all.find? fun b => b.name == name).map fun
    | .eval defaults => .eval (if callees.isEmpty then defaults else callees)
    | b => b

end Builtin

inductive Preset where
  | recommended
  | all
  deriving DecidableEq, Repr

namespace Preset

def default : Preset := .recommended

def builtins : Preset → List Builtin
  | .recommended => Builtin.all.take 3
  | .all => Builtin.all

def ofName? : String → Option Preset
  | "recommended" => some .recommended
  | "all" => some .all
  | _ => none

def unknownMessage (name : String) : String := "unknown preset `" ++ name ++ "`"

end Preset
end Arborist
