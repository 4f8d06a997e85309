import Arborist.Json.Basic
import Arborist.Tree.Kind
import Arborist.Tree.Location

/-!
# Syntax trees

A node has a kind, possibly a location, its children in named fields, and its other properties as
attributes.  Fields are kept in walking order and their names may repeat; attributes are sorted by
name.
-/

namespace Arborist

/-- What a child field holds: one node, or a sequence in which some places may be empty. -/
inductive Slot (α : Type) where
  | single (node : α)
  | sequence (items : List (Option α))

structure Field (α : Type) where
  name : String
  slot : Slot α

/-- A node of a syntax tree.  The `extension` is an annotation that nothing here looks into. -/
structure Node where
  kind : Kind
  loc : Option Location
  fields : List (Field Node)
  attributes : Members Json
  extension : Option Json

namespace Slot

variable {α : Type}

def nodes : Slot α → List (Option Nat × α)
  | .single node => [(none, node)]
  | .sequence items => items.zipIdx.filterMap fun e => e.1.map fun node => (some e.2, node)

def size : Slot α → Nat
  | .single _ => 1
  | .sequence items => items.countP Option.isSome

def taken : Slot α → Option (List Bool)
  | .single _ => none
  | .sequence items => some (items.map Option.isSome)

end Slot

/-- How a node hangs below its `parent`: the name of the field, and the `index` if the field holds a
sequence. -/
structure Edge where
  parent : Node
  field : String
  index : Option Nat

namespace Node

def ofKind (kind : Kind) : Node := ⟨kind, none, [], [], none⟩

instance : Inhabited Node := ⟨ofKind default⟩

def field? (n : Node) (name : String) : Option (Slot Node) :=
  (n.fields.find? fun f => f.name == name).map Field.slot

def child? (n : Node) (name : String) : Option Node :=
  match n.field? name with
  | some (.single node) => some node
  | _ => none

def sequence (n : Node) (name : String) : List Node :=
  match n.field? name with
  | some (.sequence items) => items.filterMap id
  | _ => []

def attribute? (n : Node) (name : String) : Option Json :=
  Members.find? n.attributes name

def string? (n : Node) (name : String) : Option String :=
  (n.attribute? name).bind Json.string?

def bool? (n : Node) (name : String) : Option Bool :=
  (n.attribute? name).bind Json.bool?

def isIdentifier (n : Node) (name : String) : Bool :=
  n.kind == .identifier && n.string? "name" == some name

/-- The children in walking order, each with the edge that leads to it.  Empty places of a sequence
count for the index. -/
def children (n : Node) : List (Edge × Node) :=
  n.fields.flatMap fun f => f.slot.nodes.map fun e => (⟨n, f.name, e.1⟩, e.2)

/-! ### Building nodes -/

def withLoc (n : Node) (loc : Location) : Node := { n with loc := some loc }

def withField (n : Node) (f : Field Node) : Node := { n with fields := n.fields ++ [f] }

def withChild (n : Node) (name : String) (child : Node) : Node := n.withField ⟨name, .single child⟩

def withSequence (n : Node) (name : String) (items : List (Option Node)) : Node :=
  n.withField ⟨name, .sequence items⟩

def withAttribute (n : Node) (name : String) (value : Json) : Node :=
  { n with attributes := Members.insert n.attributes name value }

/-! ### Branching -/

def parts (n : Node) : List Node := n.children.map Prod.snd

theorem sizeOf_lt_of_mem_nodes {s : Slot Node} {e : Option Nat × Node} (h : e ∈ s.nodes) :
    sizeOf e.2 < sizeOf s := by
  cases s with
  | single node =>
    obtain rfl := List.mem_singleton.1 h
    simp
  | sequence items =>
    obtain ⟨⟨item, i⟩, hitem, hmap⟩ := List.mem_filterMap.1 h
    obtain ⟨node, rfl, rfl⟩ := Option.map_eq_some_iff.1 hmap
    have := List.sizeOf_lt_of_mem (List.fst_mem_of_mem_zipIdx hitem)
    simp only [Slot.sequence.sizeOf_spec, Option.some.sizeOf_spec] at this ⊢
    omega

theorem sizeOf_lt_of_mem_children {n : Node} {c : Edge × Node} (h : c ∈ n.children) :
    sizeOf c.2 < sizeOf n := by
  obtain ⟨⟨name, slot⟩, hf, hc⟩ := List.mem_flatMap.1 h
  obtain ⟨e, he, rfl⟩ := List.mem_map.1 hc
  have hslot := sizeOf_lt_of_mem_nodes he
  have hfield := List.sizeOf_lt_of_mem hf
  obtain ⟨kind, loc, fields, attributes, extension⟩ := n
  simp only [Field.mk.sizeOf_spec, mk.sizeOf_spec] at hslot hfield ⊢
  omega

theorem sizeOf_lt_of_mem_parts {n p : Node} (h : p ∈ n.parts) : sizeOf p < sizeOf n := by
  obtain ⟨c, hc, rfl⟩ := List.mem_map.1 h
  exact sizeOf_lt_of_mem_children hc

instance : Branching Node where
  parts := parts
  exists_weight := ⟨sizeOf, fun _ _ => sizeOf_lt_of_mem_parts⟩

def alike (a b : Node) : Bool :=
  a.kind == b.kind && a.loc == b.loc
    && a.fields.map (fun f => (f.name, f.slot.taken)) == b.fields.map
      (fun f => (f.name, f.slot.taken))
    && Json.beq (.object a.attributes) (.object b.attributes)
    && a.extension == b.extension

/-- Structural equality, as `Branching.agree` on `alike` nodes. -/
def beq (a b : Node) : Bool :=
  Branching.agree alike a b

instance : BEq Node := ⟨beq⟩

end Node
end Arborist
