import Arborist.Rule.Builtin
import Arborist.Text

/-!
# The list of rules
-/

namespace Arborist.Command

def tableRow (name preset description : String) : String :=
  Text.padRight 20 name ++ " " ++ Text.padRight 12 preset ++ " " ++ description

def ruleRow (b : Builtin) : String :=
  let isRecommended := (Preset.recommended.builtins.map Builtin.name).contains b.name
  tableRow b.name (if isRecommended then "recommended" else "all") b.description

def ruleList : String := Text.lines (
  ["Available rules:", "", tableRow "Name" "Preset" "Description",
    String.ofList (List.replicate 80 '-')]
    ++ Builtin.all.map ruleRow
    ++ ["", "Presets:",
      "  recommended  - " ++ String.intercalate ", "
        (Preset.recommended.builtins.map Builtin.name) ++ " (default)",
      "  all          - Every rule above", "", "Use --rules to run specific rules, e.g.:",
      "  treelint check --rules no-eval,no-await-in-loop"])

end Arborist.Command
