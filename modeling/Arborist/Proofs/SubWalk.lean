import Arborist.Proofs.Events

/-!
# Walks of a subtree

A rule may walk the subtree of a node that it is told of.  If what is skipped is settled by the
nodes alone, such a walk is told what the walk of the whole tree is told between entering and
leaving that node, but for the edge of the node itself (`Branching.inside`).  Before and behind that
segment the walk of the whole tree is nowhere in the subtree.
-/

namespace Arborist

universe u v

def Event.map {α : Type u} {β : Type v} (f : α → β) : Event α → Event β
  | .enter a => .enter (f a)
  | .leave a => .leave (f a)

namespace Branching

variable {α : Type u} [Branching α]

theorem flatMap_trace_outside {control : α → Control} {as : List α} {b : α}
    (h : ∀ a ∈ as, ∀ x ∈ nodes a, x ∉ nodes b) :
    ∀ e ∈ as.flatMap (trace control), e.value ∉ nodes b := by
  intro e he
  obtain ⟨a, ha, he⟩ := List.mem_flatMap.1 he
  exact h a ha e.value (value_mem_nodes he)

/-- The trace of a value that is entered is a segment of the whole trace, and what surrounds it is
about other values. -/
theorem exists_trace_eq_append {control : α → Control} {a b : α} (hnodup : (nodes a).Nodup)
    (h : .enter b ∈ trace control a) :
    ∃ before after, trace control a = before ++ trace control b ++ after ∧
      ∀ e ∈ before ++ after, e.value ∉ nodes b := by
  induction a using parts_induction with
  | step a ih =>
      cases hcontrol : control a with
      | skip =>
          rw [trace_of_skip hcontrol] at h
          have hb : b = a := by simpa using h
          exact ⟨[], [], by simp [hb], by simp⟩
      | descend =>
          rw [trace_of_descend hcontrol, List.cons_append, List.mem_cons, List.mem_append] at h
          rcases h with h | h | h
          · cases h
            exact ⟨[], [], by simp, by simp⟩
          · obtain ⟨p, hp, h⟩ := List.mem_flatMap.1 h
            obtain ⟨before, after, htrace, houtside⟩ := ih p hp (nodup_of_mem_parts hnodup hp) h
            obtain ⟨earlier, later, hparts⟩ := List.append_of_mem hp
            have hbelow : ∀ x ∈ nodes b, x ∈ nodes p :=
              fun x hx => mem_nodes_trans (value_mem_nodes h) hx
            -- what lies below the other parts is not below this one
            have hdisjoint := nodup_flatMap_parts hnodup
            rw [hparts, List.flatMap_append, List.flatMap_cons, List.nodup_append',
              List.nodup_append'] at hdisjoint
            obtain ⟨-, ⟨-, -, hlater⟩, hearlier⟩ := hdisjoint
            have hself : a ∉ nodes b := by
              intro ha
              rw [nodes_eq, List.nodup_cons] at hnodup
              exact hnodup.1 (List.mem_flatMap.2 ⟨p, hp, hbelow a ha⟩)
            have houtside₁ : ∀ e ∈ earlier.flatMap (trace control), e.value ∉ nodes b := by
              refine flatMap_trace_outside fun q hq x hx hb => ?_
              exact hearlier (List.mem_flatMap.2 ⟨q, hq, hx⟩) (List.mem_append_left _ (hbelow x hb))
            have houtside₂ : ∀ e ∈ later.flatMap (trace control), e.value ∉ nodes b := by
              refine flatMap_trace_outside fun q hq x hx hb => ?_
              exact hlater (hbelow x hb) (List.mem_flatMap.2 ⟨q, hq, hx⟩)
            refine ⟨.enter a :: earlier.flatMap (trace control) ++ before,
              after ++ later.flatMap (trace control) ++ [.leave a], ?_, ?_⟩
            · rw [trace_of_descend hcontrol, hparts, List.flatMap_append, List.flatMap_cons, htrace]
              simp
            · intro e he
              simp only [List.mem_append, List.mem_cons, List.not_mem_nil, or_false] at he houtside
              rcases he with ((rfl | he) | he) | (he | he) | rfl
              · exact hself
              · exact houtside₁ e he
              · exact houtside e (.inl he)
              · exact houtside e (.inr he)
              · exact houtside₂ e he
              · exact hself
          · cases List.mem_singleton.1 h

/-- What the `trace` of a value holds between its two ends. -/
def inside (control : α → Control) (a : α) : List (Event α) :=
  match control a with
  | .descend => (parts a).flatMap (trace control)
  | .skip => []

theorem trace_eq_inside (control : α → Control) (a : α) :
    trace control a = Event.enter a :: inside control a ++ [Event.leave a] :=
  trace_eq control a

theorem enter_mem_trace {control : α → Control} {a p : α} (h : control a = .descend)
    (hp : p ∈ parts a) :
    .enter p ∈ trace control a := by
  have hbelow : .enter p ∈ (parts a).flatMap (trace control) := by
    refine List.mem_flatMap.2 ⟨p, hp, ?_⟩
    rw [trace_eq_inside]
    exact List.mem_cons_self
  rw [trace_of_descend h]
  exact List.mem_cons_of_mem _ (List.mem_append_left _ hbelow)

theorem value_mem_below {control : α → Control} {a : α} {e : Event α} (h : e ∈ inside control a) :
    e.value ∈ below a := by
  rw [inside] at h
  split at h
  · obtain ⟨p, hp, he⟩ := List.mem_flatMap.1 h
    exact List.mem_flatMap.2 ⟨p, hp, value_mem_nodes he⟩
  · cases h

end Branching

namespace Visit

/-- What a listener of nodes gets to see of a visit: neither the depth nor the ordinal. -/
def view (v : Visit) : Node × Option Edge := (v.node, v.edge)

theorem forall₂_view_parts {v w : Visit} (h : v.node = w.node) :
    List.Forall₂ (fun p q => p.view = q.view) v.parts w.parts := by
  have hview : ∀ u : Visit, u.parts.map view = u.node.children.map fun c => (c.2, some c.1) := by
    intro u
    have hparts := congrArg (List.map Prod.swap) u.map_edge_node_parts
    rw [List.map_map, List.map_map] at hparts
    exact hparts
  have hsame : List.Forall₂ Eq (v.parts.map view) (w.parts.map view) := by
    rw [hview, hview, h]
    exact List.forall₂_refl _
  rwa [List.forall₂_map_left_iff, List.forall₂_map_right_iff] at hsame

/-- Whoever looks at nodes and edges only cannot tell at which depth, or in which tree, a walk takes
place. -/
theorem map_view_trace {choose : Node → Control} {v w : Visit} (h : v.view = w.view) :
    (Branching.trace (fun u : Visit => choose u.node) v).map (Event.map view) =
      (Branching.trace (fun u : Visit => choose u.node) w).map (Event.map view) := by
  induction v using Branching.parts_induction generalizing w with
  | step v ih =>
      have hnode : v.node = w.node := congrArg Prod.fst h
      have hparts : ∀ ps qs : List Visit, List.Forall₂ (fun p q => p.view = q.view) ps qs →
          (∀ p ∈ ps, p ∈ v.parts) →
          (ps.flatMap (Branching.trace fun u : Visit => choose u.node)).map (Event.map view) =
            (qs.flatMap (Branching.trace fun u : Visit => choose u.node)).map (Event.map view) := by
        intro ps qs hpq
        induction hpq with
        | nil => intro _; rfl
        | cons hview _ ihrest =>
            intro hps
            rw [List.flatMap_cons, List.flatMap_cons, List.map_append, List.map_append,
              ih _ (hps _ List.mem_cons_self) hview, ihrest fun p hp =>
                hps p (List.mem_cons_of_mem _ hp)]
      rw [Branching.trace_eq_inside, Branching.trace_eq_inside]
      have hinside : (Branching.inside (fun u : Visit => choose u.node) v).map (Event.map view) =
          (Branching.inside (fun u : Visit => choose u.node) w).map (Event.map view) := by
        simp only [Branching.inside, hnode]
        cases choose w.node with
        | descend => exact hparts _ _ (forall₂_view_parts hnode) fun _ hp => hp
        | skip => rfl
      simp only [List.map_append, List.map_cons, List.map_nil, hinside, Event.map, h]

theorem events_eq_trace (control : Visit → Control) (v : Visit) :
    v.events control = Branching.trace control { v with edge := none } := by
  rw [events, walk, Branching.traverse_eq_visit, visit_recording, List.append_nil,
    List.reverse_reverse]

theorem inside_forget_edge {control : Visit → Control}
    (hcontrol : ∀ v edge, control { v with edge } = control v)
    (v : Visit) : Branching.inside control { v with edge := none } =
    Branching.inside control v := by
  rw [Branching.inside, Branching.inside, hcontrol]
  rfl

end Visit

/-- If a node is entered in the walk of a whole tree, and what is skipped does not depend on edges,
then the events of a walk that starts at the node are those from entering to leaving it, with no
edge at the node itself and otherwise the same nodes and edges.  In between only nodes below it are
entered or left, and before and behind it none of its subtree.  The walk of the subtree as a tree of
its own shows the same nodes and edges. -/
theorem subwalk_is_segment {root : Node} {control : Visit → Control}
    (hcontrol : ∀ v edge, control { v with edge } = control v) {v : Visit}
    (hv : .enter v ∈ (Visit.ofRoot root).events control) :
    ∃ before inside after,
      (Visit.ofRoot root).events control =
        before ++ (Event.enter v :: inside ++ [Event.leave v]) ++ after ∧
      v.events control = Event.enter { v with edge := none } :: inside ++
        [Event.leave { v with edge := none }] ∧
      (∀ e ∈ inside, e.value ∈ Branching.below v) ∧
      (∀ e ∈ before ++ after, e.value ∉ Branching.nodes v) ∧
      ∀ choose : Node → Control, (∀ w, control w = choose w.node) →
        ((Visit.ofRoot v.node).events control).map (Event.map Visit.view) =
          (v.events control).map (Event.map Visit.view) := by
  rw [Visit.events_ofRoot] at hv
  obtain ⟨before, after, htrace, houtside⟩ :=
    Branching.exists_trace_eq_append (Visit.nodup_nodes_ofRoot root) hv
  refine ⟨before, Branching.inside control v, after, ?_, ?_, fun e he =>
    Branching.value_mem_below he, houtside, ?_⟩
  · rw [Visit.events_ofRoot, htrace, Branching.trace_eq_inside]
  · rw [Visit.events_eq_trace, Branching.trace_eq_inside, Visit.inside_forget_edge hcontrol]
  · intro choose hchoose
    obtain rfl : control = fun w => choose w.node := funext hchoose
    rw [Visit.events_eq_trace, Visit.events_eq_trace]
    exact Visit.map_view_trace rfl

def functionStatement : Node :=
  ⟨⟨"ExpressionStatement"⟩, none,
    [⟨"expression", .single ⟨.functionExpression, none,
      [⟨"body", .single (.ofKind ⟨"BlockStatement"⟩)⟩], [], none⟩⟩],
    [], none⟩

/-- A block with `functionStatement` twice, and with an empty place in between. -/
def twofoldBlock : Node :=
  ⟨⟨"BlockStatement"⟩, none,
    [⟨"body", .sequence [some functionStatement, none, some functionStatement]⟩], [], none⟩

def pastFunctions (v : Visit) : Control :=
  if v.node.kind = .functionExpression then .skip else .descend

def secondStatement : Visit :=
  ⟨functionStatement, some ⟨twofoldBlock, "body", some 2⟩, 1, functionStatement.shape, 4⟩

theorem parts_twofoldBlock :
    (Visit.ofRoot twofoldBlock).parts =
      [{ secondStatement with edge := some ⟨twofoldBlock, "body", some 0⟩, ordinal := 1 },
        secondStatement] := by
  simp [Visit.parts, Visit.ofRoot, twofoldBlock, secondStatement, functionStatement,
    Node.children, Visit.number, Slot.nodes, Node.ofKind, Node.shape_eq, Node.parts, Shape.ofParts]

theorem enter_secondStatement_mem :
    .enter secondStatement ∈ (Visit.ofRoot twofoldBlock).events pastFunctions := by
  have hmem : secondStatement ∈ (Visit.ofRoot twofoldBlock).parts := by
    rw [parts_twofoldBlock]
    exact List.mem_cons_of_mem _ List.mem_cons_self
  rw [Visit.events_ofRoot]
  exact Branching.enter_mem_trace (by decide) hmem

theorem map_ordinal_events_twofoldBlock :
    ((Visit.ofRoot twofoldBlock).events pastFunctions).map (Event.map Visit.ordinal) =
      [.enter 0, .enter 1, .enter 2, .leave 2, .leave 1, .enter 4, .enter 5, .leave 5, .leave 4,
        .leave 0] := by
  simp [Visit.events_eq_trace, Branching.trace_eq, Branching.parts, pastFunctions, Event.map,
    Visit.parts, Visit.ofRoot, twofoldBlock, functionStatement, Node.children, Visit.number,
    Slot.nodes, Node.ofKind, Node.shape_eq, Node.parts, Shape.ofParts, Kind.functionExpression]

theorem map_ordinal_events_secondStatement :
    (secondStatement.events pastFunctions).map (Event.map Visit.ordinal) =
      [.enter 4, .enter 5, .leave 5, .leave 4] := by
  simp [Visit.events_eq_trace, Branching.trace_eq, Branching.parts, pastFunctions, Event.map,
    Visit.parts, secondStatement, functionStatement, Node.children, Visit.number, Slot.nodes,
    Node.ofKind, Node.shape_eq, Node.parts, Shape.ofParts, Kind.functionExpression]

theorem subwalk_is_segment_secondStatement :
    (∀ v edge, pastFunctions { v with edge } = pastFunctions v) ∧
    .enter secondStatement ∈ (Visit.ofRoot twofoldBlock).events pastFunctions ∧
    ((Visit.ofRoot twofoldBlock).events pastFunctions).map (Event.map Visit.ordinal) =
      [.enter 0, .enter 1, .enter 2, .leave 2, .leave 1, .enter 4, .enter 5, .leave 5, .leave 4,
        .leave 0] ∧
    (secondStatement.events pastFunctions).map (Event.map Visit.ordinal) =
      [.enter 4, .enter 5, .leave 5, .leave 4] ∧
    ∃ before inside after,
      (Visit.ofRoot twofoldBlock).events pastFunctions =
        before ++ (Event.enter secondStatement :: inside ++ [Event.leave secondStatement]) ++
          after ∧
      secondStatement.events pastFunctions =
        Event.enter { secondStatement with edge := none } :: inside ++
          [Event.leave { secondStatement with edge := none }] := by
  obtain ⟨before, inside, after, hwhole, hpart, -⟩ :=
    subwalk_is_segment (fun _ _ => rfl) enter_secondStatement_mem
  exact ⟨fun _ _ => rfl, enter_secondStatement_mem, map_ordinal_events_twofoldBlock,
    map_ordinal_events_secondStatement, before, inside, after, hwhole, hpart⟩

end Arborist
