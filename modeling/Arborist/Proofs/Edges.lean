import Arborist.Proofs.Events
import Arborist.Proofs.Lookup

/-!
# Edges and fields

An edge names the field by which a node hangs below its parent, and looking that field up should
lead back to the node.  Fields are looked up by name and only the first of a name is found, whereas
a walk goes through all of them.  So it comes down to names: in a decoded tree no two properties of
a node go by the same one (`wellNamed_of_ofJson`), since the members of an object do not.

From there on nothing is known of decoding.  Below a node whose properties are well named every edge
leads to its node (`leadsTo_of_mem_children`), and the children are found under the names of their
edges (`filter_children`).
-/

namespace Arborist

universe u v

namespace Branching

variable {α : Type u} {σ : Type v} [Branching α]

/-- A traversal hears of nothing but the values it comes by. -/
theorem forall_heard {l : Listener α σ} {P : α → Prop} {a : α} (h : ∀ b ∈ nodes a, P b) (s : σ) :
    ∀ e ∈ (visit (hearing l) a (s, ⟨[], []⟩)).2.events, P e.value := by
  refine visit_inv_nodes (I := fun s : σ × Heard α => ∀ e ∈ s.2.events, P e.value)
    (fun b hb s hs => ?_) (fun b hb s hs => ?_) _ (List.forall_mem_nil _)
  · exact List.forall_mem_append.2 ⟨hs, List.forall_mem_singleton.2 (h b hb)⟩
  · exact List.forall_mem_append.2 ⟨hs, List.forall_mem_singleton.2 (h b hb)⟩

end Branching

namespace Slot

variable {α : Type}

theorem mem_nodes_sequence {items : List (Option α)} {e : Option Nat × α}
    (h : e ∈ (sequence items).nodes) :
    ∃ i, e.1 = some i ∧ items[i]? = some (some e.2) := by
  obtain ⟨⟨item, i⟩, hitem, he⟩ := List.mem_filterMap.1 h
  obtain ⟨node, hnode, rfl⟩ := Option.map_eq_some_iff.1 he
  refine ⟨i, rfl, ?_⟩
  rw [List.mk_mem_zipIdx_iff_getElem?.1 hitem]
  exact congrArg some hnode

theorem filter_isNone_nodes_sequence (items : List (Option α)) :
    ((sequence items).nodes.filter fun e => e.1.isNone) = [] := by
  refine List.filter_eq_nil_iff.2 fun e he => ?_
  obtain ⟨i, hi, -⟩ := mem_nodes_sequence he
  simp [hi]

theorem filter_isSome_nodes_sequence (items : List (Option α)) :
    ((sequence items).nodes.filter fun e => e.1.isSome) = (sequence items).nodes := by
  refine List.filter_eq_self.2 fun e he => ?_
  obtain ⟨i, hi, -⟩ := mem_nodes_sequence he
  simp [hi]

theorem map_snd_nodes_sequence (items : List (Option α)) :
    (sequence items).nodes.map Prod.snd = items.filterMap id := by
  have hindexed : ∀ (items : List (Option α)) (k : Nat),
      (((items.zipIdx k).filterMap fun e => e.1.map fun node => (some e.2, node)).map Prod.snd) =
          items.filterMap id := by
    intro items
    induction items with
    | nil => intro k; rfl
    | cons item items ih =>
        intro k
        cases item with
        | none => exact ih (k + 1)
        | some node => exact congrArg (node :: ·) (ih (k + 1))
  exact hindexed items 0

theorem pairwise_index_nodes_sequence (items : List (Option α)) :
    ((sequence items).nodes.filterMap Prod.fst).Pairwise (· < ·) := by
  have hindex : (items.zipIdx.map Prod.snd).Pairwise (· < ·) := by
    rw [List.zipIdx_map_snd]
    exact List.pairwise_lt_range'
  rw [nodes, List.filterMap_filterMap, List.pairwise_filterMap]
  refine (List.pairwise_map.1 hindex).imp fun {e e'} hlt i hi i' hi' => ?_
  obtain ⟨_ | node, k⟩ := e
  · cases hi
  · obtain ⟨_ | node', k'⟩ := e'
    · cases hi'
    · cases hi
      cases hi'
      exact hlt

end Slot

namespace Node

/-- Every node of a decoded tree is decoded from a value of its own. -/
theorem exists_ofJson_of_mem_nodes {v : Json} {root : Node} (hv : v.WellFormed)
    (h : ofJson v = .ok root) :
    ∀ n ∈ Branching.nodes root, ∃ w : Json, w.WellFormed ∧ ofJson w = .ok n := by
  refine Branching.forall_mem_nodes (P := fun n => ∃ w : Json, w.WellFormed ∧
    ofJson w = .ok n) ?_ ⟨v, hv, h⟩
  rintro n ⟨w, hw, hn⟩ p hp
  have hpart : p ∈ (Visit.ofRoot n).parts.map Visit.node := by
    rw [Visit.map_node_parts]
    exact hp
  obtain ⟨part, hmem, rfl⟩ := List.mem_map.1 hpart
  have hn' : ofJson w = .ok (Visit.ofRoot n).node := hn
  obtain ⟨c, hc, -, hdecode⟩ := exists_mem_of_forall₂ (Json.forall₂_childNodes hw hn') hmem
  exact ⟨c.2, hw.follow? (Json.follow?_of_mem_childNodes hc), hdecode⟩

theorem wellNamed_of_mem_nodes {v : Json} {root : Node} (hv : v.WellFormed)
    (h : ofJson v = .ok root) :
    ∀ n ∈ Branching.nodes root, n.WellNamed := by
  intro n hn
  obtain ⟨w, hw, hdecode⟩ := exists_ofJson_of_mem_nodes hv h n hn
  exact wellNamed_of_ofJson hw hdecode

/-! ### Children by name -/

/-- The children in the field of a name. -/
theorem filter_children {n : Node} (h : n.WellNamed) (name : String) :
    (n.children.filter fun c => c.1.field == name) =
      (n.field? name).elim [] fun slot => slot.nodes.map fun e => (⟨n, name, e.1⟩, e.2) := by
  have hfields := h.nodup_fields
  rw [children, field?]
  generalize n.fields = fs at hfields
  induction fs with
  | nil => rfl
  | cons f fs ih =>
      rw [List.map_cons, List.nodup_cons] at hfields
      rw [List.flatMap_cons, List.filter_append, ih hfields.2]
      by_cases hname : f.name = name
      · -- no other field has this name, so what is found first is all there is
        have hnone : (fs.find? fun f => f.name == name) = none := by
          rw [List.find?_eq_none]
          intro f' hf' heq
          exact hfields.1 (hname ▸ beq_iff_eq.1 heq ▸ List.mem_map_of_mem hf')
        rw [List.filter_eq_self.2, hnone, List.find?_cons_of_pos (by simpa using hname), hname]
        · exact List.append_nil _
        · intro c hc
          obtain ⟨e, -, rfl⟩ := List.mem_map.1 hc
          exact beq_iff_eq.2 hname
      · rw [List.filter_eq_nil_iff.2, List.find?_cons_of_neg (by simpa using hname)]
        · rfl
        · intro c hc
          obtain ⟨e, -, rfl⟩ := List.mem_map.1 hc
          simpa using hname

theorem filter_children_and {n : Node} (h : n.WellNamed) (name : String)
    (keep : Option Nat → Bool) :
    (n.children.filter fun c => c.1.field == name && keep c.1.index) =
      ((n.field? name).elim [] fun slot => (slot.nodes.filter fun e => keep e.1).map fun e =>
        (⟨n, name, e.1⟩, e.2)) := by
  have hfilter : (n.children.filter fun c => c.1.field == name && keep c.1.index) =
      (n.children.filter fun c => c.1.field == name).filter fun c => keep c.1.index := by
    rw [List.filter_filter]
    exact List.filter_congr fun c _ => Bool.and_comm _ _
  rw [hfilter, filter_children h]
  cases n.field? name with
  | none => rfl
  | some slot => exact List.filter_map

/-- The child in a field that holds a single node is the one that is reached by it without an
index. -/
theorem filter_children_single {n : Node} (h : n.WellNamed) (name : String) :
    (n.children.filter fun c => c.1.field == name && c.1.index.isNone) =
      (n.child? name).toList.map fun c => (⟨n, name, none⟩, c) := by
  rw [filter_children_and h, child?]
  rcases n.field? name with _ | node | items
  · rfl
  · rfl
  · rw [Option.elim_some, Slot.filter_isNone_nodes_sequence]
    rfl

/-- The nodes of a field that holds a sequence are those that are reached by it with an index, in
the order of the index. -/
theorem filter_children_sequence {n : Node} (h : n.WellNamed) (name : String) :
    (n.children.filter fun c => c.1.field == name && c.1.index.isSome).map Prod.snd =
      n.sequence name ∧
    ((n.children.filter fun c => c.1.field == name && c.1.index.isSome).filterMap fun c =>
      c.1.index).Pairwise (· < ·) := by
  rw [filter_children_and h, sequence]
  rcases n.field? name with _ | node | items
  · exact ⟨rfl, .nil⟩
  · exact ⟨rfl, .nil⟩
  · rw [Option.elim_some, Slot.filter_isSome_nodes_sequence, List.map_map, List.filterMap_map]
    exact ⟨Slot.map_snd_nodes_sequence items, Slot.pairwise_index_nodes_sequence items⟩

end Node

/-! ### Edges -/

/-- An edge leads to the node `n` if its field holds that node alone, or has it at the index. -/
def Edge.LeadsTo (e : Edge) (n : Node) : Prop :=
  (e.parent.field? e.field = some (.single n) ∧ e.index = none) ∨
    ∃ items i, e.parent.field? e.field = some (.sequence items) ∧ e.index = some i ∧
      items[i]? = some (some n)

theorem Node.leadsTo_of_mem_children {n : Node} (h : n.WellNamed) {c : Edge × Node}
    (hc : c ∈ n.children) :
    c.1.LeadsTo c.2 := by
  obtain ⟨f, hf, hc⟩ := List.mem_flatMap.1 hc
  obtain ⟨e, he, rfl⟩ := List.mem_map.1 hc
  have hfield : n.field? f.name = some f.slot := h.field?_eq_some_iff.2 hf
  cases hslot : f.slot with
  | single node =>
      rw [hslot] at hfield he
      cases List.mem_singleton.1 he
      exact .inl ⟨hfield, rfl⟩
  | sequence items =>
      rw [hslot] at hfield he
      obtain ⟨i, hindex, hitem⟩ := Slot.mem_nodes_sequence he
      exact .inr ⟨items, i, hfield, hindex, hitem⟩

/-- In a walk that starts at a node of a well-named tree, every other node comes with an edge that
leads to it. -/
theorem Visit.leadsTo_of_mem_nodes {root : Node} (h : ∀ n ∈ Branching.nodes root, n.WellNamed)
    {top : Visit} (htop : top.node ∈ Branching.nodes root) :
    ∀ w ∈ Branching.nodes top, w = top ∨ ∃ e, w.edge = some e ∧ e.LeadsTo w.node := by
  have hall : ∀ w ∈ Branching.nodes top, w.node ∈ Branching.nodes root ∧
      (w = top ∨ ∃ e, w.edge = some e ∧ e.LeadsTo w.node) := by
    refine Branching.forall_mem_nodes (P := fun w : Visit => w.node ∈ Branching.nodes root ∧
      (w = top ∨ ∃ e, w.edge = some e ∧ e.LeadsTo w.node)) ?_ ⟨htop, .inl rfl⟩
    rintro v ⟨hv, -⟩ w hw
    -- below the top, visits are made from the children of a node of the tree
    have hchild : (w.edge, w.node) ∈ v.node.children.map fun c => (some c.1, c.2) := by
      rw [← Visit.map_edge_node_parts]
      exact List.mem_map_of_mem hw
    obtain ⟨c, hc, heq⟩ := List.mem_map.1 hchild
    obtain ⟨hedge, hnode⟩ := Prod.mk.inj heq
    refine ⟨Branching.mem_nodes_trans hv (Branching.mem_nodes_of_mem_parts ?_),
      .inr ⟨c.1, hedge.symm, ?_⟩⟩
    · rw [← hnode]
      exact List.mem_map_of_mem hc
    · rw [← hnode]
      exact Node.leadsTo_of_mem_children (h _ hv) hc
  exact fun w hw => (hall w hw).2

/-- In a tree that a value decodes to, the fields and attributes of every node go by different
names, none of them reserved.  So in a walk from any of its nodes, whatever the listener skips,
every event but those of the node at which the walk starts has an edge that leads to its node.  The
node of a field is the only child that is reached by it without an index, and the nodes of a
sequence are the children that are reached by it with an index, in ascending order of that. -/
theorem edges_lead_to_their_nodes {σ : Type v} {v : Json} {root : Node} (hv : v.WellFormed)
    (h : Node.ofJson v = .ok root) :
    (∀ n ∈ Branching.nodes root,
      (n.fields.map Field.name ++ n.attributes.map Prod.fst ++ Node.reservedNames).Nodup) ∧
    (∀ top : Visit, top.node ∈ Branching.nodes root → ∀ (l : Listener Visit σ) (s : σ),
      ∀ event ∈ (top.walk (Branching.hearing l) (s, ⟨[], []⟩)).2.events,
        event.value = { top with edge := none } ∨ ∃ e, event.value.edge = some e ∧
          e.LeadsTo event.value.node) ∧
    ∀ n ∈ Branching.nodes root, ∀ name,
      (n.children.filter fun c => c.1.field == name && c.1.index.isNone) =
        (n.child? name).toList.map (fun c => (⟨n, name, none⟩, c)) ∧
      (n.children.filter fun c => c.1.field == name && c.1.index.isSome).map Prod.snd =
        n.sequence name ∧
      ((n.children.filter fun c => c.1.field == name && c.1.index.isSome).filterMap fun c =>
        c.1.index).Pairwise (· < ·) := by
  have hnamed := Node.wellNamed_of_mem_nodes hv h
  refine ⟨hnamed, fun top htop l s => ?_, fun n hn name => ?_⟩
  · rw [Visit.walk, Branching.traverse_eq_visit]
    have htop' : { top with edge := none : Visit }.node ∈ Branching.nodes root := htop
    exact Branching.forall_heard (Visit.leadsTo_of_mem_nodes hnamed htop') s
  · exact ⟨Node.filter_children_single (hnamed n hn) name,
      Node.filter_children_sequence (hnamed n hn) name⟩

def skippingMarks : Listener Visit Nat :=
  ⟨fun v s => (s + 1, if v.node.kind = ⟨"Mark"⟩ then .skip else .descend), fun _ s => s⟩

theorem edges_lead_to_their_nodes_markedBlock :
    ∃ root, markedBlock.WellFormed ∧ Node.ofJson markedBlock = .ok root ∧
      root ∈ Branching.nodes root ∧
      (root.fields.map Field.name ++ root.attributes.map Prod.fst ++ Node.reservedNames).Nodup ∧
      (∀ event ∈ ((Visit.ofRoot root).walk (Branching.hearing skippingMarks)
        (0, ⟨[], []⟩)).2.events,
        event.value = Visit.ofRoot root ∨ ∃ e, event.value.edge = some e ∧
          e.LeadsTo event.value.node) ∧
      (root.children.filter fun c => c.1.field == "mark" && c.1.index.isNone) =
        [(⟨root, "mark", none⟩, .ofKind ⟨"Mark"⟩)] ∧
      (root.children.filter fun c => c.1.field == "body" && c.1.index.isSome).map Prod.snd =
        [.ofKind ⟨"EmptyStatement"⟩] := by
  obtain ⟨hnames, hevents, hlookup⟩ :=
    edges_lead_to_their_nodes wellFormed_markedBlock ofJson_markedBlock
  refine ⟨_, wellFormed_markedBlock, ofJson_markedBlock, Branching.self_mem_nodes _,
    hnames _ (Branching.self_mem_nodes _),
    hevents (Visit.ofRoot _) (Branching.self_mem_nodes _) skippingMarks 0, ?_, ?_⟩
  · exact (hlookup _ (Branching.self_mem_nodes _) "mark").1
  · exact (hlookup _ (Branching.self_mem_nodes _) "body").2.1

end Arborist
