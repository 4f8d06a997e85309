import Arborist.Tree.Node

/-!
# Shapes

The shape of a tree is all that is needed to number its nodes: how many nodes it has, and the shapes
of the subtrees below its root, in walking order.
-/

namespace Arborist

/-- The number of nodes of a tree, and the shapes below its root.  A walk keeps shapes in order to
number nodes without counting them again. -/
structure Shape where
  size : Nat
  parts : List Shape

namespace Shape

def ofParts (parts : List Shape) : Shape := ⟨parts.foldr (fun p n => p.size + n) 0 + 1, parts⟩

def leaf : Shape := ofParts []

end Shape

def Node.shape (n : Node) : Shape :=
  Branching.fold (fun _ => Shape.ofParts) n

theorem Node.shape_eq (n : Node) : n.shape = Shape.ofParts (n.parts.map Node.shape) :=
  Branching.fold_eq (fun _ => Shape.ofParts) n

theorem Node.parts_shape (n : Node) : n.shape.parts = n.children.map fun c => c.2.shape := by
  rw [Node.shape_eq, Node.parts, List.map_map]
  rfl

/-- A tree has the nodes below the root's children, with these, and the root. -/
theorem Node.size_shape (n : Node) :
    n.shape.size = n.children.foldr (fun c n => c.2.shape.size + n) 0 + 1 := by
  rw [Node.shape_eq, Shape.ofParts, Node.parts, List.map_map, List.foldr_map]
  rfl

end Arborist
