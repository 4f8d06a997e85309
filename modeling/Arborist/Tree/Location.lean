import Arborist.Json.Writer
import Arborist.Text.Quoted

/-!
# Source locations

The `loc` property of a node gives the range of source text it was parsed from.  Locations and
points are read from an object by name or from an array by position.  Lines and columns are kept as
they are given.
-/

namespace Arborist

structure Point where
  line : Nat
  column : Option Nat
  deriving DecidableEq, Repr

structure Location where
  start : Option Point
  stop : Option Point
  source : Option String
  deriving DecidableEq, Repr

namespace Location

inductive Expected where
  | location
  | point
  | count
  | string
  deriving DecidableEq, Repr

def Expected.words : Expected → String
  | .location => "struct SourceLocation"
  | .point => "struct Position"
  | .count => "u32"
  | .string => "a string"

inductive Fault where
  | wrongType (found : Json) (expected : Expected)
  | outOfRange (found : Int)
  | missingLine
  | emptyPoint
  | tooLong (length : Nat)

def describe : Json → String
  | .null => "null"
  | .bool b => "boolean `" ++ (if b then "true" else "false") ++ "`"
  | .number (.integer n) => "integer `" ++ toString n ++ "`"
  | .number (.real x) => "floating point `" ++ Json.numberText (.real x) ++ "`"
  | .string s => "string " ++ Text.quoted s
  | .array _ => "sequence"
  | .object _ => "map"

def Fault.message : Fault → String
  | .wrongType found expected =>
      "invalid type: " ++ describe found ++ ", expected " ++ expected.words
  | .outOfRange found => "invalid value: integer `" ++ toString found ++ "`, expected u32"
  | .missingLine => "missing field `line`"
  | .emptyPoint => "invalid length 0, expected struct Position with 2 elements"
  | .tooLong length => "invalid length " ++ toString length ++ ", expected fewer elements in array"

def optional {α : Type} (decode : Json → Except Fault α) : Option Json → Except Fault (Option α)
  | none => .ok none
  | some .null => .ok none
  | some v => (decode v).map some

def decodeCount : Json → Except Fault Nat
  | .number (.integer n) => if 0 ≤ n ∧ n < Int.pow 2 32 then .ok n.toNat else .error (.outOfRange n)
  | v => .error (.wrongType v .count)

def decodeString : Json → Except Fault String
  | .string s => .ok s
  | v => .error (.wrongType v .string)

/-- A point must have a `line`.  The column of an object is looked at first. -/
def decodePoint (v : Json) : Except Fault Point :=
  match v with
  | .object members => do
    let column ← optional decodeCount (Members.find? members "column")
    match Members.find? members "line" with
    | none => throw .missingLine
    | some line => return ⟨← decodeCount line, column⟩
  | .array items =>
    match items with
    | [] => .error .emptyPoint
    | line :: rest => do
      let line ← decodeCount line
      let column ← optional decodeCount rest[0]?
      if 2 < items.length then throw (.tooLong items.length)
      return ⟨line, column⟩
  | v => .error (.wrongType v .point)

/-- The `end` of an object is looked at first, then its `source`, then its `start`. -/
def decode (v : Json) : Except Fault Location :=
  match v with
  | .object members => do
    let stop ← optional decodePoint (Members.find? members "end")
    let source ← optional decodeString (Members.find? members "source")
    let start ← optional decodePoint (Members.find? members "start")
    return ⟨start, stop, source⟩
  | .array items => do
    let start ← optional decodePoint items[0]?
    let stop ← optional decodePoint items[1]?
    let source ← optional decodeString items[2]?
    if 3 < items.length then throw (.tooLong items.length)
    return ⟨start, stop, source⟩
  | v => .error (.wrongType v .location)

end Location
end Arborist
