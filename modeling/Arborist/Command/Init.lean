import Arborist.Files.Volume
import Arborist.Text

/-!
# A first configuration
-/

namespace Arborist.Command

def configName : String := "treelint.toml"

def initialConfig : String := Text.lines [
  "# treelint configuration",
  "",
  "# Rule preset: \"recommended\" or \"all\"",
  "preset = \"recommended\"",
  "",
  "[runner]",
  "# Directory holding the serialized trees (default: current directory)",
  "# root = \"./trees\"",
  "",
  "# Suffix of tree files; `src/app.js.ast.json` reports as `src/app.js`",
  "suffix = \".ast.json\"",
  "",
  "# Glob patterns, relative to root, of tree files to skip",
  "exclude = [",
  "    \"**/node_modules/**\",",
  "]",
  "",
  "# Skip malformed tree files instead of failing",
  "keep_going = false",
  "",
  "# Rule configurations",
  "# Each rule can be enabled/disabled; rules outside the preset run when",
  "# explicitly enabled",
  "",
  "[rules.no-eval]",
  "enabled = true",
  "callees = [\"eval\"]",
  "",
  "# [rules.no-await-in-loop]",
  "# enabled = true"]

def initText : String := Text.lines [
  "Created " ++ configName,
  "",
  "Next steps:",
  "  1. Edit " ++ configName ++ " to configure rules",
  "  2. Run: treelint check"]

/-- Writes `initialConfig` as `configName` in the current directory, or says why not.  What is
already there stays, unless `force`. -/
def writeInitial (volume : Volume) (force : Bool) : Except (List String) Volume :=
  if volume.exists? configName && !force then
    .error ["Configuration file already exists at " ++ configName ++ ". Use --force to overwrite."]
  else
    match volume.writeHere configName initialConfig with
    | .ok volume => .ok volume
    | .error fault => .error ["Failed to write " ++ configName, fault.message]

end Arborist.Command
