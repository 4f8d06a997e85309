import Arborist.Config.Basic
import Arborist.Log
import Arborist.Rule.Builtin

/-!
# The rules that a configuration selects

A configuration selects the rules of its preset and those built-in rules outside of it that it
enables.  Rules that it disables are still selected here; they are dropped when a runner is made.
-/

namespace Arborist

def RuleConfig.callees (r : RuleConfig) : List String :=
  let callees := r.strings "callees"
  if callees.isEmpty then Rule.Eval.defaultCallees else callees

namespace Config

def builtin? (c : Config) (name : String) : Option Builtin :=
  Builtin.ofName? name ((c.rule? name).elim [] RuleConfig.callees)

/-- The preset that a configuration means.  One that `Preset.ofName?` does not know is as good as
none. -/
def effectivePreset (c : Config) : Preset :=
  (c.preset.bind Preset.ofName?).getD .default

/-- The names of rules outside the `effectivePreset` that are enabled all the same, in the order of
`Builtin.names`. -/
def additions (c : Config) : List String :=
  let preset := c.effectivePreset.builtins.map Builtin.name
  Builtin.names.filter fun name =>
    (c.rule? name).bind RuleConfig.enabled == some true && !preset.contains name

def selected (c : Config) : List Builtin :=
  (c.effectivePreset.builtins.map Builtin.name ++ c.additions).filterMap c.builtin?

def selectionLog (c : Config) : List Log.Line :=
  let preset :=
    match c.preset with
    | some p =>
      if (Preset.ofName? p).isNone then
        [Log.warn (Preset.unknownMessage p ++ ", falling back to recommended")]
      else []
    | none => []
  let unknown := (c.rules.map Prod.fst).filter fun name => !Builtin.names.contains name
  preset ++ c.additions.map (fun name => Log.debug ("Enabling rule outside preset: " ++ name))
    ++ unknown.map fun name => Log.warn ("Unknown rule in config: " ++ name)

end Config
end Arborist
