import Arborist.Json.Basic
import Arborist.Decimal.Layout

/-!
# Writing JSON text

A layout says what stands in front of the items of a container and after its names; the compact
layout puts nothing there, the indented one starts a line.  Writing is a traversal of the value with
the place of each part, so values may nest to any depth.
-/

namespace Arborist.Json

/-- Doubles are written with the fewest digits that read back (`Binary.shortest`), positionally if
the first digit is worth between `10 ^ -5` and `10 ^ 15`. -/
def numberLayout : DecimalLayout := ⟨-5, 15, "e"⟩

def numberText : Number → String
  | .integer n => toString n
  | .real x => if x.isFinite then (Binary.ofFloat x).shortest.render numberLayout else "null"

def hexDigit (n : Nat) : Char :=
  if n < 10 then Char.ofNat ('0'.toNat + n) else Char.ofNat ('a'.toNat + (n - 10))

/-- A character as it stands inside quotes.  Only quotes, backslashes and control characters are
escaped, the last ones by number unless there is a letter for them. -/
def escapeChar (c : Char) : List Char :=
  if c = '"' then ['\\', '"']
  else if c = '\\' then ['\\', '\\']
  else if c = '\x08' then ['\\', 'b']
  else if c = '\x0c' then ['\\', 'f']
  else if c = '\n' then ['\\', 'n']
  else if c = '\r' then ['\\', 'r']
  else if c = '\t' then ['\\', 't']
  else if c.toNat < 0x20 then
    ['\\', 'u', '0', '0', hexDigit (c.toNat / 16), hexDigit (c.toNat % 16)]
  else [c]

def quote (s : String) : String :=
  "\"" ++ String.ofList (s.toList.flatMap escapeChar) ++ "\""

/-- How values are laid out: the `separator` between a container's brackets and items at a depth,
and the `colon` between a name and its value. -/
structure TextLayout where
  separator : Nat → String
  colon : String

def TextLayout.compact : TextLayout := ⟨fun _ => "", ":"⟩

def TextLayout.indented : TextLayout :=
  ⟨fun depth => "\n" ++ String.ofList (List.replicate (2 * depth) ' '), ": "⟩

/-- A value together with what is written in front of it (`lead`) and the number of containers
around it.  Its parts are placed one deeper (`placedBranching`). -/
structure Placed where
  lead : String
  depth : Nat
  value : Json

namespace Placed

def comma (index : Nat) : String :=
  if index = 0 then "" else ","

def parts (layout : TextLayout) (p : Placed) : List Placed :=
  match p.value with
  | .array items =>
    items.zipIdx.map fun (v, i) => ⟨comma i ++ layout.separator (p.depth + 1), p.depth + 1, v⟩
  | .object members =>
    members.zipIdx.map fun ((name, v), i) =>
      ⟨comma i ++ layout.separator (p.depth + 1) ++ quote name ++ layout.colon, p.depth + 1, v⟩
  | _ => []

def opening (p : Placed) : String :=
  match p.value with
  | .null => "null"
  | .bool b => if b then "true" else "false"
  | .number n => numberText n
  | .string s => quote s
  | .array _ => "["
  | .object _ => "\x7b"

def closing (layout : TextLayout) (p : Placed) : String :=
  match p.value with
  | .array [] => "]"
  | .array _ => layout.separator p.depth ++ "]"
  | .object [] => "\x7d"
  | .object _ => layout.separator p.depth ++ "\x7d"
  | _ => ""

theorem parts_value (layout : TextLayout) (p : Placed) :
    (p.parts layout).map value = p.value.parts := by
  obtain ⟨lead, depth, v⟩ := p
  cases v with
  | array items => simp [parts, Json.parts, List.map_map, Function.comp_def]
  | object members =>
    simp only [parts, Json.parts, List.map_map, Function.comp_def]
    conv => rhs; rw [← List.zipIdx_map_fst 0 members, List.map_map]
    rfl
  | _ => rfl

end Placed

@[reducible] def placedBranching (layout : TextLayout) : Branching Placed where
  parts := Placed.parts layout
  exists_weight := by
    refine ⟨fun p => sizeOf p.value, fun p q hq => sizeOf_lt_of_mem_parts ?_⟩
    rw [← Placed.parts_value layout]
    exact List.mem_map_of_mem hq

/-- Writes the `opening` of every placed value that is entered, and the `closing` of every one that
is left. -/
def writing (layout : TextLayout) : Listener Placed String where
  enter p out := (out ++ p.lead ++ p.opening, .descend)
  leave p out := out ++ p.closing layout

def render (layout : TextLayout) (v : Json) : String :=
  @Branching.traverse _ (placedBranching layout) _ (writing layout) ⟨"", 0, v⟩ ""

def compact (v : Json) : String := v.render .compact

def pretty (v : Json) : String := v.render .indented

end Arborist.Json
