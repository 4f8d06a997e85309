import Arborist.Json.Reader
import Arborist.Tree.Node

/-!
# Trees from JSON

A JSON object with a string `type` is a node.  Its `loc` and `inferredType` have a place of their
own; of its other properties, the child properties of its kind come first, in walking order, and the
rest follows by name.  A property that is a node becomes a child, an array with nodes in it becomes
a sequence whose other items are empty places, and everything else is an attribute.  Under a child
property of the kind every array is a sequence and null is no property at all.

Decoding is a fold over the JSON value, so that trees may be of any depth: `Digest` says what is
known of a value before it is known where the value stands.
-/

namespace Arborist

inductive TreeError where
  | json (fault : Json.Fault)
  | notAnObject (found : Json.Shape)
  | missingType
  | invalidType (found : Json.Shape)
  | location (tag : String) (fault : Location.Fault)

namespace TreeError

def message : TreeError → String
  | .json fault => "Invalid JSON: " ++ fault.message
  | .notAnObject found => "Expected a node object, found " ++ found.word
  | .missingType => "Node is missing its `type` tag"
  | .invalidType found => "Node `type` tag must be a string, found " ++ found.word
  | .location tag fault => "Malformed `loc` on " ++ tag ++ " node: " ++ fault.message

def cause? : TreeError → Option String
  | .json fault => some fault.message
  | .location _ fault => some fault.message
  | _ => none

end TreeError

/-- Whether a value is a node: an object with a string `type`. -/
def Json.isNode (v : Json) : Bool :=
  match v.get? "type" with
  | some (.string _) => true
  | _ => false

namespace Node

/-- What a value decodes to as a `node`, and what its `items` do if it is an array.  A digest is
made for every value, but errors in values that are not nodes are never looked at. -/
structure Digest where
  node : Except TreeError Node
  items : List (Except TreeError Node)

structure Property where
  name : String
  value : Json
  digest : Digest

inductive Filing where
  | dropped
  | field (field : Field Node)
  | attribute (name : String) (value : Json)

namespace Filing

def field? : Filing → Option (Field Node)
  | .field f => some f
  | _ => none

def attribute? : Filing → Option (String × Json)
  | .attribute name value => some (name, value)
  | _ => none

end Filing

def decodeItems (items : List Json) (decoded : List (Except TreeError Node)) :
    Except TreeError (List (Option Node)) :=
  (items.zip decoded).mapM fun e => if e.1.isNode then e.2.map some else .ok none

/-- Files a property as a field or an attribute; `known` says whether it is a child property of the
kind, under which a null is dropped and an array is a sequence whatever its items are. -/
def Property.file (known : Bool) (p : Property) : Except TreeError Filing :=
  match p.value with
  | .null => .ok (if known then .dropped else .attribute p.name .null)
  | .array items =>
    if known || items.any Json.isNode then
      (decodeItems items p.digest.items).map fun items => .field ⟨p.name, .sequence items⟩
    else .ok (.attribute p.name (.array items))
  | v =>
    if v.isNode then p.digest.node.map fun n => .field ⟨p.name, .single n⟩
    else .ok (.attribute p.name v)

def reservedNames : List String := ["type", "loc", "inferredType"]

/-- The properties to be filed, the child properties of the `kind` first and in its order, each with
whether it is one. -/
def filingOrder (kind : Kind) (properties : List Property) : List (Bool × Property) :=
  let free := properties.filter fun p => !reservedNames.contains p.name
  let known := kind.childKeys.filterMap fun key => free.find? fun p => p.name == key
  let others := free.filter fun p => !kind.childKeys.contains p.name
  known.map (true, ·) ++ others.map (false, ·)

def decodeKind : Option Json → Except TreeError Kind
  | none => .error .missingType
  | some (.string tag) => .ok ⟨tag⟩
  | some v => .error (.invalidType v.shape)

def decodeLocation (kind : Kind) : Option Json → Except TreeError (Option Location)
  | none => .ok none
  | some .null => .ok none
  | some v =>
    match Location.decode v with
    | .ok loc => .ok (some loc)
    | .error fault => .error (.location kind.tag fault)

def decodeObject (properties : List Property) : Except TreeError Node := do
  let value? := fun name => (properties.find? fun p => p.name == name).map Property.value
  let kind ← decodeKind (value? "type")
  let loc ← decodeLocation kind (value? "loc")
  let filings ← (filingOrder kind properties).mapM fun e => e.2.file e.1
  return {
    kind
    loc
    fields := filings.filterMap Filing.field?
    attributes := Members.ofList (filings.filterMap Filing.attribute?)
    extension := (value? "inferredType").filter fun v => !v.isNull }

def digest (v : Json) (parts : List Digest) : Digest :=
  match v with
  | .array _ => ⟨.error (.notAnObject .array), parts.map Digest.node⟩
  | .object members => ⟨decodeObject (List.zipWith (fun m d => ⟨m.1, m.2, d⟩) members parts), []⟩
  | v => ⟨.error (.notAnObject v.shape), []⟩

/-- The tree that a JSON value describes.  The errors of a node come before those of its children,
and these in the order of `filingOrder`. -/
def ofJson (v : Json) : Except TreeError Node :=
  (Branching.fold digest v).node

def parse (text : String) : Except TreeError Node :=
  match Json.parse text with
  | .ok v => ofJson v
  | .error fault => .error (.json fault)

end Node
end Arborist
