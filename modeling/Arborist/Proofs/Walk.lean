import Arborist.Proofs.Traversal
import Arborist.Tree.Walk
import Mathlib.Data.List.Nodup

/-!
# Walks and the recursion on trees

A walk keeps the events still to come in a list.  `Node.recur` is the recursion that one would write
without thinking of the depth of trees: enter a node, do the same for its children one after the
other unless they are to be skipped, and leave the node.  The loop of a walk stops and ends in the
state of the recursion, for listeners of nodes and their edges (`Listener.ofNodes`).  Listeners that
also look at depths and ordinals, to tell apart nodes that are equal, are covered by
`Branching.traverse_eq_visit`.
-/

namespace Arborist

universe u

variable {σ : Type u}

/-- A listener that is told of a node and the edge it was reached by, and of nothing else. -/
def Listener.ofNodes (enter : Node → Option Edge → σ → σ × Control)
    (leave : Node → Option Edge → σ → σ) :
    Listener Visit σ where
  enter v s := enter v.node v.edge s
  leave v s := leave v.node v.edge s

namespace Node

/-- The recursion that a walk stands for: `enter` a node reached by an edge, do the same for its
children in order unless they are to be skipped, and `leave` the node. -/
def recur (enter : Node → Option Edge → σ → σ × Control)
    (leave : Node → Option Edge → σ → σ) (n : Node)
    (e : Option Edge) (s : σ) : σ :=
  match enter n e s with
  | (s, .descend) =>
      leave n e (n.children.attach.foldl (fun s c => recur enter leave c.1.2 (some c.1.1) s) s)
  | (s, .skip) => leave n e s
termination_by sizeOf n
decreasing_by exact sizeOf_lt_of_mem_children c.2

theorem recur_eq (enter : Node → Option Edge → σ → σ × Control) (leave : Node → Option Edge → σ → σ)
    (n : Node) (e : Option Edge) (s : σ) :
    n.recur enter leave e s =
      match enter n e s with
      | (s, .descend) =>
          leave n e (n.children.foldl (fun s c => recur enter leave c.2 (some c.1) s) s)
      | (s, .skip) => leave n e s := by
  rw [recur]
  split
  · rw [List.foldl_attach (l := n.children) (f := fun s c => recur enter leave c.2 (some c.1) s)]
  · rfl

end Node

namespace Visit

/-- Every node of a tree is entered and left once. -/
theorem length_events (v : Visit) : (Branching.events v).length = 2 * v.node.shape.size := by
  induction v using Branching.parts_induction with
  | step v ih =>
      have hall : ∀ ws : List Visit, (∀ w ∈ ws, w ∈ v.parts) →
          (ws.flatMap Branching.events).length =
            2 * (ws.map node).foldr (fun n k => n.shape.size + k) 0 := by
        intro ws
        induction ws with
        | nil => intro _; rfl
        | cons w ws ihws =>
            intro hws
            rw [List.flatMap_cons, List.length_append, ih w (hws w List.mem_cons_self),
              ihws fun x hx => hws x (List.mem_cons_of_mem w hx), List.map_cons, List.foldr_cons,
              Nat.mul_add]
      have hbelow := hall v.parts fun _ hw => hw
      rw [map_node_parts, Node.parts, List.foldr_map] at hbelow
      rw [Branching.events_eq, List.length_append, List.length_cons, List.length_singleton,
        Node.size_shape, Nat.mul_add]
      exact congrArg (· + 1 + 1) hbelow

theorem visit_ofNodes (enter : Node → Option Edge → σ → σ × Control)
    (leave : Node → Option Edge → σ → σ) (v : Visit) (s : σ) :
    Branching.visit (.ofNodes enter leave) v s = v.node.recur enter leave v.edge s := by
  induction v using Branching.parts_induction generalizing s with
  | step v ih =>
      have hall : ∀ ws : List Visit, (∀ w ∈ ws, w ∈ v.parts) → ∀ s,
          Branching.visitAll (.ofNodes enter leave) ws s =
            (ws.map fun w => (w.edge, w.node)).foldl
            (fun s c => c.2.recur enter leave c.1 s) s := by
        intro ws
        induction ws with
        | nil => intro _ s; rfl
        | cons w ws ihws =>
            intro hws s
            rw [Branching.visitAll_cons, ih w (hws w List.mem_cons_self), List.map_cons,
              List.foldl_cons]
            exact ihws (fun x hx => hws x (List.mem_cons_of_mem w hx)) _
      rw [Branching.visit_eq, Node.recur_eq]
      show (match enter v.node v.edge s with
        | (s, .descend) => leave v.node v.edge (Branching.visitAll (.ofNodes enter leave) v.parts s)
        | (s, .skip) => leave v.node v.edge s) = _
      rcases enter v.node v.edge s with ⟨t, _ | _⟩
      · show leave v.node v.edge (Branching.visitAll (.ofNodes enter leave) v.parts t) = _
        rw [hall v.parts (fun _ hw => hw), map_edge_node_parts, List.foldl_map]
      · rfl

/-! ### Nodes on the way down -/

theorem depth_of_mem_number {depth : Nat} {children : List (Edge × Node)} {shapes : List Shape}
    {ordinal : Nat}
    {w : Visit} (h : w ∈ number depth children shapes ordinal) : w.depth = depth := by
  induction children generalizing shapes ordinal with
  | nil => cases h
  | cons c children ih =>
      rcases List.mem_cons.1 h with rfl | h
      · rfl
      · exact ih h

theorem depth_of_mem_parts {v w : Visit} (h : w ∈ v.parts) : w.depth = v.depth + 1 :=
  depth_of_mem_number h

/-- `v.Reaches between w` says that one gets down from `v` to `w`, which lies strictly below it,
through the nodes `between` and no others. -/
def Reaches (v : Visit) : List Visit → Visit → Prop
  | [], w => w ∈ v.parts
  | u :: between, w => u ∈ v.parts ∧ u.Reaches between w

theorem Reaches.below {v w c : Visit} {between : List Visit} (h : v.Reaches between w)
    (hc : c ∈ w.parts) :
    v.Reaches (between ++ [w]) c := by
  induction between generalizing v with
  | nil => exact ⟨h, hc⟩
  | cons u between ih => exact ⟨h.1, ih h.2⟩

theorem visit_entering (v : Visit) (entered : List Visit) :
    Branching.visit entering v entered = (Branching.nodes v).reverse ++ entered := by
  induction v using Branching.parts_induction generalizing entered with
  | step v ih =>
      have hall : ∀ ws : List Visit, (∀ w ∈ ws, w ∈ v.parts) → ∀ entered,
          Branching.visitAll entering ws entered =
              (ws.flatMap Branching.nodes).reverse ++ entered := by
        intro ws
        induction ws with
        | nil => intro _ entered; rfl
        | cons w ws ihws =>
            intro hws entered
            rw [Branching.visitAll_cons, ih w (hws w List.mem_cons_self),
              ihws fun x hx => hws x (List.mem_cons_of_mem w hx), List.flatMap_cons,
              List.reverse_append, List.append_assoc]
      rw [Branching.visit_eq, Branching.nodes_eq, List.reverse_cons, List.append_assoc]
      exact hall v.parts (fun _ hw => hw) (v :: entered)

theorem preorder_ofRoot (root : Node) : (ofRoot root).preorder = Branching.nodes (ofRoot root) := by
  rw [preorder, walk, Branching.traverse_eq_visit, visit_entering, List.append_nil,
    List.reverse_reverse]
  rfl

/-- Two nodes of a tree with the same ordinal are the same. -/
theorem eq_of_ordinal_eq {root : Node} {v w : Visit} (hv : v ∈ (ofRoot root).preorder)
    (hw : w ∈ (ofRoot root).preorder) (h : v.ordinal = w.ordinal) : v = w := by
  have hnodup : ((ofRoot root).preorder.map ordinal).Nodup := by
    rw [map_ordinal_preorder]
    exact List.nodup_range
  exact List.inj_on_of_nodup_map hnodup hv hw h

end Visit

/-- The loop of a walk stops, after at most two turns for every node of the tree, and leaves the
listener in the state of the plain recursion. -/
theorem walk_refines_recursion (enter : Node → Option Edge → σ → σ × Control)
    (leave : Node → Option Edge → σ → σ) (root : Node) (s : σ) :
    (∃ n ≤ 2 * root.shape.size,
      Branching.Turns (.ofNodes enter leave) n [.enter (Visit.ofRoot root)] s []
        (root.recur enter leave none s)) ∧
    root.walk (.ofNodes enter leave) s = root.recur enter leave none s := by
  have hvisit : Branching.visit (.ofNodes enter leave) (Visit.ofRoot root) s =
      root.recur enter leave none s :=
    Visit.visit_ofNodes enter leave (Visit.ofRoot root) s
  obtain ⟨n, hn, hturns⟩ :=
    Branching.exists_turns_visit (.ofNodes enter leave) (Visit.ofRoot root) [] s
  rw [hvisit] at hturns
  rw [Visit.length_events] at hn
  refine ⟨⟨n, hn, hturns⟩, ?_⟩
  have hrun := hturns.run_eq
  rw [Branching.run] at hrun
  exact hrun

end Arborist
