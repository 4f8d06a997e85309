import Arborist.Members
import Arborist.Traversal

/-!
# JSON values

Numbers come in two kinds that never compare equal: integers, and doubles.  The members of an object
are in ascending order of their names (`Json.WellFormed`), as the reader leaves them.

A JSON value branches into the items of an array or the values of an object, so it is traversed
without recursion; `Json.beq` compares two values that way.
-/

namespace Arborist

inductive Number where
  | integer (value : Int)
  | real (value : Float)
  deriving BEq, Inhabited

inductive Json where
  | null
  | bool (value : Bool)
  | number (value : Number)
  | string (value : String)
  | array (items : List Json)
  | object (members : List (String × Json))
  deriving Inhabited

namespace Json

def parts : Json → List Json
  | .array items => items
  | .object members => members.map Prod.snd
  | _ => []

theorem sizeOf_lt_of_mem_parts {v p : Json} (h : p ∈ v.parts) : sizeOf p < sizeOf v := by
  cases v with
  | array items =>
    have hitem : sizeOf p < sizeOf items := List.sizeOf_lt_of_mem h
    simp only [array.sizeOf_spec]
    omega
  | object members =>
    obtain ⟨⟨name, q⟩, hm, rfl⟩ := List.mem_map.1 h
    have := List.sizeOf_lt_of_mem hm
    simp only [object.sizeOf_spec, Prod.mk.sizeOf_spec] at this ⊢
    omega
  | null => cases h
  | bool b => cases h
  | number n => cases h
  | string s => cases h

instance : Branching Json where
  parts := parts
  exists_weight := ⟨sizeOf, fun _ _ => sizeOf_lt_of_mem_parts⟩

inductive Shape where
  | null
  | boolean
  | number
  | string
  | array
  | object
  deriving DecidableEq, Repr

def Shape.word : Shape → String
  | .null => "null"
  | .boolean => "boolean"
  | .number => "number"
  | .string => "string"
  | .array => "array"
  | .object => "object"

def shape : Json → Shape
  | .null => .null
  | .bool _ => .boolean
  | .number _ => .number
  | .string _ => .string
  | .array _ => .array
  | .object _ => .object

def isNull : Json → Bool
  | .null => true
  | _ => false

def string? : Json → Option String
  | .string s => some s
  | _ => none

def bool? : Json → Option Bool
  | .bool b => some b
  | _ => none

def get? (v : Json) (name : String) : Option Json :=
  match v with
  | .object members => Members.find? members name
  | _ => none

def ofInt (n : Int) : Json := .number (.integer n)

def ofNat (n : Nat) : Json := ofInt n

def ofStrings (texts : List String) : Json := .array (texts.map .string)

/-- The object with these members, whatever their order.  Of several members with one name the last
one counts, as in `Members.ofList`. -/
def ofMembers (members : List (String × Json)) : Json := .object (Members.ofList members)

def alike : Json → Json → Bool
  | .null, .null => true
  | .bool a, .bool b => a == b
  | .number a, .number b => a == b
  | .string a, .string b => a == b
  | .array a, .array b => a.length == b.length
  | .object a, .object b => a.map Prod.fst == b.map Prod.fst
  | _, _ => false

/-- Structural equality, as `Branching.agree` on `alike` values.  Doubles compare as numbers, so the
two zeros are equal. -/
def beq (a b : Json) : Bool :=
  Branching.agree alike a b

instance : BEq Json := ⟨beq⟩

/-- Objects have their members in ascending order of the name (`Members.Sorted`), at every depth.
Values that were read from a text are of this form. -/
inductive WellFormed : Json → Prop
  | null : WellFormed .null
  | bool (b : Bool) : WellFormed (.bool b)
  | number (n : Number) : WellFormed (.number n)
  | string (s : String) : WellFormed (.string s)
  | array {items : List Json} : (∀ v ∈ items, WellFormed v) → WellFormed (.array items)
  | object {members : List (String × Json)} :
      Members.Sorted members → (∀ m ∈ members, WellFormed m.2) → WellFormed (.object members)

end Json
end Arborist
