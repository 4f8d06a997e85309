import Arborist.Tree.Shape

/-!
# Walks

A walk tells a listener of every node of a tree, before and after its descendants, children in
order.  What the listener is told of is a visit: the node, the edge it was reached by, how deep it
lies, and its ordinal.  The node at which a walk starts has no edge.

Ordinals tell apart nodes that are equal: the ordinal of a node is its number in the order in which
a walk that skips nothing enters the nodes of the whole tree, the root being number zero.
`map_ordinal_preorder` says so.
-/

namespace Arborist

universe u

/-- A node as a walk comes by it, with its `ordinal` in the whole tree.  Its `shape` is kept to
number the nodes below it. -/
structure Visit where
  node : Node
  edge : Option Edge
  depth : Nat
  shape : Shape
  ordinal : Nat

namespace Visit

def ofRoot (root : Node) : Visit := ⟨root, none, 0, root.shape, 0⟩

/-- Children at a depth, given their shapes and the ordinal of the first one.  Between the ordinals
of two neighbours there is room for what is below the first. -/
def number (depth : Nat) : List (Edge × Node) → List Shape → Nat → List Visit
  | [], _, _ => []
  | (edge, node) :: children, shapes, ordinal =>
    let shape := shapes.headD .leaf
    ⟨node, some edge, depth, shape, ordinal⟩ :: number depth children shapes.tail
    (ordinal + shape.size)

def parts (v : Visit) : List Visit :=
  number (v.depth + 1) v.node.children v.shape.parts (v.ordinal + 1)

theorem map_edge_node_number (depth : Nat) (children : List (Edge × Node)) (shapes : List Shape)
    (ordinal : Nat) :
    (number depth children shapes ordinal).map (fun w => (w.edge, w.node)) =
      children.map fun c => (some c.1, c.2) := by
  induction children generalizing shapes ordinal with
  | nil => rfl
  | cons c children ih => rw [number, List.map_cons, List.map_cons, ih]

/-- The parts of a visit are the children of its node, with their edges and in order. -/
theorem map_edge_node_parts (v : Visit) :
    v.parts.map (fun w => (w.edge, w.node)) = v.node.children.map fun c => (some c.1, c.2) :=
  map_edge_node_number _ _ _ _

theorem map_node_parts (v : Visit) : v.parts.map node = v.node.parts := by
  have := congrArg (List.map Prod.snd) v.map_edge_node_parts
  rwa [List.map_map, List.map_map] at this

instance : Branching Visit where
  parts := parts
  exists_weight := by
    refine ⟨fun v => sizeOf v.node, fun v w hw => Node.sizeOf_lt_of_mem_parts ?_⟩
    rw [← map_node_parts]
    exact List.mem_map_of_mem hw

/-- The child in a given field, at a given index of it if it is a sequence.  The children before it
are only counted. -/
def child? (v : Visit) (field : String) (index : Option Nat) : Option Visit :=
  let before := (v.node.fields.takeWhile fun f => f.name != field).foldr
      (fun f n => f.slot.size + n) 0
  let child := fun node within =>
    let shapes := v.shape.parts.drop (before + within)
    let earlier := (v.shape.parts.take (before + within)).foldr (fun p n => p.size + n) 0
    let ordinal := v.ordinal + 1 + earlier
    some ⟨node, some ⟨v.node, field, index⟩, v.depth + 1, shapes.headD .leaf, ordinal⟩
  match v.node.field? field, index with
  | some (.single node), none => child node 0
  | some (.sequence items), some i =>
    match items[i]? with
    | some (some node) => child node ((items.take i).countP Option.isSome)
    | _ => none
  | _, _ => none

/-- Walks the subtree of a node that another walk has come by.  Ordinals are still those in the
whole tree. -/
def walk {σ : Type u} (l : Listener Visit σ) (v : Visit) (s : σ) : σ :=
  Branching.traverse l { v with edge := none } s

end Visit

def Node.walk {σ : Type u} (l : Listener Visit σ) (root : Node) (s : σ) : σ :=
  (Visit.ofRoot root).walk l s

def recording (control : Visit → Control) : Listener Visit (List (Event Visit)) where
  enter v events := (.enter v :: events, control v)
  leave v events := .leave v :: events

/-- The events of a walk of a subtree in which `control` decides what is skipped, in order. -/
def Visit.events (control : Visit → Control) (v : Visit) : List (Event Visit) :=
  (v.walk (recording control) []).reverse

def entering : Listener Visit (List Visit) where
  enter v entered := (v :: entered, .descend)
  leave _ entered := entered

def Visit.preorder (v : Visit) : List Visit :=
  (v.walk entering []).reverse

/-! ### Numbering -/

theorem map_ordinal_visit_entering (v : Visit) (h : v.shape = v.node.shape) (entered : List Visit) :
    (Branching.visit entering v entered).map Visit.ordinal
      = (List.range' v.ordinal v.shape.size).reverse ++ entered.map Visit.ordinal := by
  induction v using Branching.parts_induction generalizing entered with
  | step v ih =>
    have hall : ∀ (children : List (Edge × Node)) (ordinal : Nat) (entered : List Visit),
        (∀ w ∈ Visit.number (v.depth + 1) children (children.map fun c => c.2.shape) ordinal,
          w ∈ v.parts) →
        (Branching.visitAll entering
            (Visit.number (v.depth + 1) children (children.map fun c => c.2.shape) ordinal)
              entered).map Visit.ordinal
          = (List.range' ordinal (children.foldr (fun c n => c.2.shape.size + n) 0)).reverse
            ++ entered.map Visit.ordinal := by
      intro children
      induction children with
      | nil => intro ordinal entered _; rfl
      | cons c children ihc =>
        intro ordinal entered hmem
        simp only [Visit.number, List.map_cons, List.headD_cons, List.tail_cons] at hmem ⊢
        rw [Branching.visitAll_cons, ihc _ _ fun w hw => hmem w (List.mem_cons_of_mem _ hw),
          ih _ (hmem _ List.mem_cons_self) rfl, List.foldr_cons, ← List.range'_append_1,
          List.reverse_append, List.append_assoc]
    have hparts : v.parts
        = Visit.number (v.depth + 1) v.node.children (v.node.children.map fun c => c.2.shape)
            (v.ordinal + 1) := by
      rw [Visit.parts, h, Node.parts_shape]
    have hbelow := hall v.node.children (v.ordinal + 1) (v :: entered) fun w hw => hparts ▸ hw
    rw [← hparts] at hbelow
    rw [Branching.visit_eq, h, Node.size_shape, List.range'_succ, List.reverse_cons,
      List.append_assoc]
    exact hbelow

/-- A walk that skips nothing enters the nodes of a tree in the order of their ordinals, and leaves
none out. -/
theorem map_ordinal_preorder (root : Node) :
    (Visit.ofRoot root).preorder.map Visit.ordinal = List.range root.shape.size := by
  rw [Visit.preorder, Visit.walk, Branching.traverse_eq_visit, List.map_reverse,
    map_ordinal_visit_entering _ rfl, List.map_nil, List.append_nil, List.reverse_reverse,
    List.range_eq_range']
  rfl

end Arborist
