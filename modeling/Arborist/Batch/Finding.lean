import Arborist.Rule.Basic

/-!
# Findings

A finding is a report that has been tied to the file it is about.
-/

namespace Arborist

structure Finding where
  checkId : String
  path : String
  start : Option Point
  stop : Option Point
  extra : Option Json

namespace Finding

/-- The finding of a report in the file with the source path `path`.  An attachment that is
`Json.null` counts as none. -/
def ofReport (path : String) (r : Report) : Finding where
  checkId := r.checkId
  path := path
  start := r.node.loc.bind Location.start
  stop := r.node.loc.bind Location.stop
  extra := r.extra.filter fun e => !e.isNull

def pointText (p : Point) : String :=
  toString p.line ++
    match p.column with
    | some c => ":" ++ toString c
    | none => ""

def place (f : Finding) : String :=
  f.path ++
    match f.start with
    | some p => ":" ++ pointText p
    | none => ""

def text (f : Finding) : String := f.place ++ ": " ++ f.checkId

def pointJson (p : Point) : Json :=
  .object (("line", .ofNat p.line) ::
    match p.column with
    | some c => [("col", .ofNat c)]
    | none => [])

def member {α : Type} (name : String) (encode : α → Json) : Option α → List (String × Json)
  | some a => [(name, encode a)]
  | none => []

def toJson (f : Finding) : Json :=
  .object ([("check_id", .string f.checkId), ("path", .string f.path)]
    ++ member "start" pointJson f.start ++ member "end" pointJson f.stop ++
      member "extra" id f.extra)

end Finding

structure BatchReport where
  results : List Finding
  checked : Nat
  skipped : Nat

namespace BatchReport

def empty : BatchReport := ⟨[], 0, 0⟩

def hasFindings (r : BatchReport) : Bool := !r.results.isEmpty

def toJson (r : BatchReport) : Json :=
  .object [("results", .array (r.results.map Finding.toJson))]

end BatchReport
end Arborist
