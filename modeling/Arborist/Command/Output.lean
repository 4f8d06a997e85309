import Arborist.Batch.Finding
import Arborist.Command.Arguments
import Arborist.Json.Writer
import Arborist.Text

/-!
# What is printed
-/

namespace Arborist.Command

def coloured (colour : Nat) (s : String) : String :=
  "\x1b[" ++ toString colour ++ "m" ++ s ++ "\x1b[0m"

def yellow : Nat := 33

def red : Nat := 31

def green : Nat := 32

def range (f : Finding) : String :=
  f.place ++
    match f.start, f.stop with
    | some _, some stop => "-" ++ Finding.pointText stop
    | _, _ => ""

def findingLines (f : Finding) : List String :=
  [coloured yellow f.checkId ++ " at " ++ range f]
    ++ (match f.extra with
      | some e => ["  = extra: " ++ e.compact]
      | none => [])
    ++ [""]

def summary (r : BatchReport) : String :=
  let skipped := if r.skipped = 0 then "" else ", " ++ toString r.skipped ++
      " malformed file(s) skipped"
  coloured (if r.hasFindings then red else green)
    ("Found " ++ toString r.results.length ++ " finding(s) in " ++ toString r.checked ++
      " file(s)" ++ skipped)

def OutputFormat.print (r : BatchReport) : OutputFormat → String
  | .text => Text.lines (r.results.flatMap findingLines ++ [summary r])
  | .json => Text.lines [r.toJson.pretty]
  | .compact => Text.lines (r.results.map Finding.text)

def hanging (width : Nat) (s : String) : String :=
  String.ofList (s.toList.flatMap fun c =>
    if c = '\n' then '\n' :: List.replicate width ' ' else [c])

/-- The causes of an error, one after the other.  They are numbered if there are several, and the
lines of each are moved to the right by `hanging`. -/
def causeLines : List String → List String
  | [] => []
  | [cause] => ["", "Caused by:", "    " ++ hanging 4 cause]
  | causes => "" :: "Caused by:" :: causes.mapIdx fun i cause =>
      let number := toString i
      String.ofList (List.replicate (5 - number.length) ' ') ++ number ++ ": " ++ hanging 7 cause

def errorText : List String → String
  | [] => ""
  | message :: causes => String.intercalate "\n" (("Error: " ++ message) :: causeLines causes)

end Arborist.Command
