import Arborist.Proofs.Dispatch
import Arborist.Proofs.LoopHeads

/-!
# Which awaits are reported

An `await` should be reported if a loop iterates it: if it lies outside of the head of the loop, and
no function lies between the two.  `toList_reports` computes the reports from the tree, without
scopes, and `mem_nodes_iff` says of the computation what it looks for: a loop that iterates the
`await`, and the end of whose head is noticed.
-/

namespace Arborist.Rule.AwaitInLoop

/-! ### Awaits that inherit -/

/-- A visit, and whether its node runs once per iteration of a loop in its innermost function.  The
mark is inherited by `passDown`, and the rule reads it off its scopes. -/
structure Marked where
  visit : Visit
  perIteration : Bool

namespace Marked

def parts (m : Marked) : List Marked :=
  m.visit.parts.map fun c => ⟨c, passDown m.visit.node c m.perIteration⟩

instance : Branching Marked where
  parts := parts
  exists_weight := by
    refine ⟨fun m => Branching.weight m.visit, fun m p hp => ?_⟩
    obtain ⟨c, hc, rfl⟩ := List.mem_map.1 hp
    exact Branching.weight_lt_of_mem_parts hc

def isFound (m : Marked) : Bool :=
  m.visit.node.kind == .awaitExpression && m.perIteration

def reports (m : Marked) : List Report :=
  ((Branching.nodes m).filter isFound).map fun m => m.visit.report name none

theorem reports_eq (m : Marked) :
    m.reports = (if m.isFound then [m.visit.report name none] else []) ++
      m.parts.flatMap reports := by
  rw [reports, Branching.nodes_eq, List.filter_cons, List.filter_flatMap]
  show List.map _ (if m.isFound then _ else _) = _
  split
  · rw [List.map_cons, List.map_flatMap]
    rfl
  · rw [List.map_flatMap]
    rfl

/-- Marking adds nothing to the nodes of a subtree and takes none away. -/
theorem map_visit_nodes (m : Marked) : (Branching.nodes m).map visit = Branching.nodes m.visit := by
  induction m using Branching.parts_induction with
  | step m ih =>
      have hbelow : m.parts.flatMap (fun p => (Branching.nodes p).map visit) =
          m.visit.parts.flatMap Branching.nodes := by
        rw [List.flatMap_congr (g := fun p => Branching.nodes p.visit) ih, parts, List.flatMap_map]
      rw [Branching.nodes_eq, Branching.nodes_eq, List.map_cons, List.map_flatMap]
      exact congrArg (m.visit :: ·) hbelow

end Marked

theorem scope?_of_await {v : Visit} (h : v.node.kind = .awaitExpression) : scope? v = none := by
  rw [scope?_eq_none_iff]
  simp [isLoop, isFunction, h, Kind.awaitExpression, Kind.forStatement, Kind.forInStatement,
    Kind.forOfStatement, Kind.whileStatement, Kind.doWhileStatement, Kind.functionDeclaration,
    Kind.functionExpression, Kind.arrowFunctionExpression]

/-- The rule reports the node it enters or nothing, and it never skips. -/
theorem enter_reaction (v : Visit) (scopes : List Scope) :
    (enter v scopes).2 =
      ⟨if Marked.isFound ⟨v, runsPerIteration scopes⟩ then [v.report name none] else [],
        false⟩ := by
  rw [enter, Marked.isFound]
  cases hscope : scope? v with
  | some own =>
      have hkind : v.node.kind ≠ .awaitExpression := by
        intro hkind
        rw [scope?_of_await hkind] at hscope
        cases hscope
      simp [hkind, Reaction.none]
  | none =>
      simp only
      split <;> rfl

def solo : Listener Visit (List Scope × Context) := rule.alone

theorem solo_enter (v : Visit) (scopes : List Scope) (c : Context) :
    solo.enter v (scopes, c) =
      (((enter v scopes).1,
        c.add (if Marked.isFound ⟨v, runsPerIteration scopes⟩ then [v.report name none] else [])),
          .descend) := by
  show (((enter v scopes).1, c.add (enter v scopes).2.reports),
    if (enter v scopes).2.skip then Control.skip else .descend) = _
  rw [enter_reaction]
  rfl

theorem solo_leave (v : Visit) (scopes : List Scope) (c : Context) :
    solo.leave v (scopes, c) = (leave v scopes, c) := by
  show (leave v scopes, c.add []) = _
  rw [Context.add_nil]

/-- When the turn of a child comes, the children before it have been passed. -/
theorem visitAll_solo {v : Visit} (hfirst : HeadFirst v) {scopes : List Scope}
    (habove : Above v.depth scopes)
    (hvisit : ∀ w ∈ v.parts, ∀ (scopes : List Scope) (c : Context), Above w.depth scopes →
      Branching.visit solo w (scopes, c) =
        (passed w scopes, c.add (Marked.reports ⟨w, runsPerIteration scopes⟩)))
    (after : List Visit) :
    ∀ (before : List Visit) (c : Context), v.parts = before ++ after →
      Branching.visitAll solo after (passedAll before (enter v scopes).1, c) =
        (passedAll v.parts (enter v scopes).1,
          c.add (after.flatMap fun w =>
            Marked.reports ⟨w, passDown v.node w (runsPerIteration scopes)⟩)) := by
  induction after with
  | nil =>
      intro before c hparts
      rw [List.append_nil] at hparts
      rw [hparts, List.flatMap_nil, Context.add_nil]
      rfl
  | cons w after ih =>
      intro before c hparts
      have hw : w ∈ v.parts := by simp [hparts]
      have hdepth : ∀ x ∈ before, x.depth = v.depth + 1 := fun x hx =>
        Visit.depth_of_mem_parts (by simp [hparts, hx])
      have habove' : Above w.depth (passedAll before (enter v scopes).1) := by
        rw [Visit.depth_of_mem_parts hw]
        exact habove.enter.passedAll hdepth
      have hpassed : passed w (passedAll before (enter v scopes).1) =
          passedAll (before ++ [w]) (enter v scopes).1 := by
        rw [passedAll, passedAll, List.foldl_append]
        rfl
      rw [Branching.visitAll_cons, hvisit w hw _ c habove', hpassed,
        ih (before ++ [w]) _ (by rw [hparts, List.append_assoc]; rfl), Context.add_add,
        runsPerIteration_passedAll hfirst habove hparts, List.flatMap_cons]

/-- A visit of the rule adds the reports on the subtree to the context. -/
theorem visit_solo (v : Visit) (hfirst : ∀ w ∈ Branching.nodes v, HeadFirst w) :
    ∀ (scopes : List Scope) (c : Context), Above v.depth scopes →
      Branching.visit solo v (scopes, c) =
        (passed v scopes, c.add (Marked.reports ⟨v, runsPerIteration scopes⟩)) := by
  induction v using Branching.parts_induction with
  | step v ih =>
      intro scopes c habove
      have hvisit := fun w (hw : w ∈ v.parts) => ih w hw fun x hx =>
        hfirst x (Branching.mem_nodes_trans (Branching.mem_nodes_of_mem_parts hw) hx)
      rw [Branching.visit_eq, solo_enter]
      show solo.leave v (Branching.visitAll solo v.parts (passedAll [] (enter v scopes).1, _)) = _
      rw [visitAll_solo (hfirst v (Branching.self_mem_nodes v)) habove hvisit v.parts [] _ rfl,
        solo_leave, leave_passedAll_parts habove, Context.add_add, Marked.reports_eq, Marked.parts,
        List.flatMap_map]

/-- The reports on a decoded tree are those on the awaits that inherit that they run once per
iteration. -/
theorem toList_reports {json : Json} {root : Node} (h : Node.ofJson json = .ok root) :
    (Rule.reports [rule] root).toList = Marked.reports ⟨Visit.ofRoot root, false⟩ := by
  have hdecoded : ∀ w ∈ Branching.nodes (Visit.ofRoot root), ∃ json,
      Node.ofJson json = .ok w.node := by
    refine Branching.forall_mem_nodes (fun v hv w hw => ?_) ⟨json, h⟩
    obtain ⟨json, hv⟩ := hv
    refine Node.exists_ofJson_of_mem_parts hv ?_
    rw [← Visit.map_node_parts]
    exact List.mem_map_of_mem hw
  have hvisit := visit_solo (Visit.ofRoot root)
    (fun w hw => (hdecoded w hw).elim fun _ hw => headFirst_of_ofJson hw) [] .empty
    (by simp [Above])
  rw [reports_singleton]
  show (Branching.visit solo (Visit.ofRoot root) ([], .empty)).2.reports.toList = _
  rw [hvisit, Context.toList_reports_add]
  rfl

/-! ### Awaits that are iterated -/

theorem isFunction_of_isLoop {n : Node} (h : isLoop n = true) : isFunction n = false := by
  simp only [isLoop, Bool.or_eq_true, Bool.and_eq_true, beq_iff_eq] at h
  rcases h with (((h | h) | h) | h) | ⟨h, -⟩ <;> rw [isFunction, h] <;> rfl

theorem Iterates.below {l v c : Visit} (h : Iterates l v) (hv : isFunction v.node = false)
    (hc : c ∈ v.parts) :
    Iterates l c := by
  obtain ⟨hloop, between, hreaches, hfunction, hhead⟩ := h
  refine ⟨hloop, between ++ [v], hreaches.below hc, ?_, ?_⟩
  · intro f hf
    rcases List.mem_append.1 hf with hf | hf
    · exact hfunction f hf
    · rw [List.mem_singleton.1 hf]
      exact hv
  · cases between with
    | nil => exact hhead
    | cons u between => exact hhead

namespace Marked

theorem mem_nodes_of_mem_parts {m : Marked} {v c : Visit} {b : Bool}
    (h : ⟨v, b⟩ ∈ Branching.nodes m)
    (hc : c ∈ v.parts) : ⟨c, passDown v.node c b⟩ ∈ Branching.nodes m :=
  Branching.mem_nodes_trans h (Branching.mem_nodes_of_mem_parts (List.mem_map_of_mem hc))

theorem exists_iterates (v : Visit) :
    ∀ m ∈ Branching.nodes (⟨v, false⟩ : Marked), m.perIteration = true →
      ∃ l ∈ Branching.nodes v, Iterates l m.visit ∧ headCloses l.node = true := by
  -- going down, a node that runs once per iteration inherits the loop that iterates its parent, or
  -- its parent is one
  have hall : ∀ m ∈ Branching.nodes (⟨v, false⟩ : Marked), m.visit ∈ Branching.nodes v ∧
      (m.perIteration = true → ∃ l ∈ Branching.nodes v, Iterates l m.visit ∧
          headCloses l.node = true) := by
    refine Branching.forall_mem_nodes (fun m hm p hp => ?_)
      ⟨Branching.self_mem_nodes v, Bool.noConfusion⟩
    obtain ⟨hmem, hfound⟩ := hm
    obtain ⟨c, hc, rfl⟩ := List.mem_map.1 hp
    refine ⟨Branching.mem_nodes_trans hmem (Branching.mem_nodes_of_mem_parts hc), fun hpass => ?_⟩
    have hinherit : m.perIteration = true → isFunction m.visit.node = false →
        ∃ l ∈ Branching.nodes v, Iterates l c ∧ headCloses l.node = true := by
      intro hm hfunction
      obtain ⟨l, hl, hiterates, hcloses⟩ := hfound hm
      exact ⟨l, hl, hiterates.below hfunction hc, hcloses⟩
    simp only [passDown] at hpass
    by_cases hloop : isLoop m.visit.node = true
    · rw [if_pos hloop, Bool.or_eq_true, Bool.and_eq_true, Bool.not_eq_true'] at hpass
      rcases hpass with hm | ⟨hhead, hcloses⟩
      · exact hinherit hm (isFunction_of_isLoop hloop)
      · exact ⟨m.visit, hmem, ⟨hloop, [], hc, by simp, hhead⟩, hcloses⟩
    · rw [if_neg hloop, Bool.and_eq_true, Bool.not_eq_true'] at hpass
      exact hinherit hpass.1 hpass.2
  exact fun m hm => (hall m hm).2

theorem mem_nodes_of_reaches {m : Marked} {v a : Visit} {between : List Visit}
    (h : ⟨v, true⟩ ∈ Branching.nodes m) (hv : isFunction v.node = false)
    (hreaches : v.Reaches between a)
    (hfunction : ∀ f ∈ between, isFunction f.node = false) : ⟨a, true⟩ ∈ Branching.nodes m := by
  have hpass : ∀ c, passDown v.node c true = true := fun c => by simp [passDown, hv]
  induction between generalizing v with
  | nil => exact hpass a ▸ mem_nodes_of_mem_parts h hreaches
  | cons u between ih =>
      have hu := hfunction u List.mem_cons_self
      exact ih (hpass u ▸ mem_nodes_of_mem_parts h hreaches.1) hu hreaches.2
        (fun f hf => hfunction f (List.mem_cons_of_mem u hf)) fun c => by simp [passDown, hu]

theorem mem_nodes_of_iterates {m : Marked} {l a : Visit} {b : Bool}
    (hl : ⟨l, b⟩ ∈ Branching.nodes m)
    (h : Iterates l a) (hcloses : headCloses l.node = true) : ⟨a, true⟩ ∈ Branching.nodes m := by
  obtain ⟨hloop, between, hreaches, hfunction, hhead⟩ := h
  have hpass : passDown l.node (between.headD a) b = true := by
    rw [passDown, if_pos hloop, hhead, hcloses]
    exact Bool.or_true b
  cases between with
  | nil => exact hpass ▸ mem_nodes_of_mem_parts hl hreaches
  | cons u between =>
      exact mem_nodes_of_reaches (hpass ▸ mem_nodes_of_mem_parts hl hreaches.1)
        (hfunction u List.mem_cons_self) hreaches.2 fun f hf =>
          hfunction f (List.mem_cons_of_mem u hf)

/-- A node runs once per iteration exactly if some loop iterates it, the end of whose head is
noticed. -/
theorem mem_nodes_iff {v a : Visit} :
    ⟨a, true⟩ ∈ Branching.nodes (⟨v, false⟩ : Marked) ↔
      ∃ l ∈ Branching.nodes v, Iterates l a ∧ headCloses l.node = true := by
  constructor
  · intro h
    exact exists_iterates v _ h rfl
  · rintro ⟨l, hl, hiterates, hcloses⟩
    rw [← map_visit_nodes ⟨v, false⟩] at hl
    obtain ⟨m, hm, rfl⟩ := List.mem_map.1 hl
    exact mem_nodes_of_iterates (b := m.perIteration) hm hiterates hcloses

end Marked

theorem report_mem_iff {json : Json} {root : Node} (h : Node.ofJson json = .ok root) {a : Visit}
    (ha : a ∈ (Visit.ofRoot root).preorder) (hkind : a.node.kind = .awaitExpression) :
    a.report name none ∈ Rule.reports [rule] root ↔
      ⟨a, true⟩ ∈ Branching.nodes (⟨Visit.ofRoot root, false⟩ : Marked) := by
  rw [← Array.mem_toList_iff, toList_reports h, Marked.reports, List.mem_map]
  constructor
  · rintro ⟨m, hm, hreport⟩
    obtain ⟨hmem, hfound⟩ := List.mem_filter.1 hm
    have hvisit : m.visit ∈ (Visit.ofRoot root).preorder := by
      rw [Visit.preorder_ofRoot, ← Marked.map_visit_nodes ⟨Visit.ofRoot root, false⟩]
      exact List.mem_map_of_mem hmem
    -- a report names the ordinal of its node, which no other node of the tree has
    have heq : m.visit = a := Visit.eq_of_ordinal_eq hvisit ha (congrArg Report.ordinal hreport)
    have hiteration : m.perIteration = true := (Bool.and_eq_true_iff.1 hfound).2
    rw [← heq, ← hiteration]
    exact hmem
  · intro hmem
    refine ⟨⟨a, true⟩, List.mem_filter.2 ⟨hmem, ?_⟩, rfl⟩
    rw [Marked.isFound, hkind]
    rfl

/-- An `await` is reported exactly if some loop iterates it whose head does not end with a loop or a
function. -/
theorem await_reported_iff {json : Json} {root : Node} (h : Node.ofJson json = .ok root) {a : Visit}
    (ha : a ∈ (Visit.ofRoot root).preorder) (hkind : a.node.kind = .awaitExpression) :
    a.report name none ∈ Rule.reports [rule] root ↔
      ∃ l ∈ (Visit.ofRoot root).preorder, Iterates l a ∧ headCloses l.node = true := by
  rw [report_mem_iff h ha hkind, Marked.mem_nodes_iff, Visit.preorder_ofRoot]

/-- A loop over the items of a node of the kind `head`, whose body is an `await`. -/
def forOf (head : Kind) : Json :=
  .object [("body", .object [("type", .string Kind.awaitExpression.tag)]),
    ("right", .object [("type", .string head.tag)]), ("type", .string Kind.forOfStatement.tag)]

def forOfNode (head : Kind) : Node :=
  ⟨.forOfStatement, none,
    [⟨"right", .single (.ofKind head)⟩, ⟨"body", .single (.ofKind .awaitExpression)⟩], [], none⟩

theorem ofJson_forOf (head : Kind) : Node.ofJson (forOf head) = .ok (forOfNode head) := by
  refine Node.ofJson_eq_ok_iff.2 ⟨_, rfl, rfl, rfl, ⟨[.field ⟨"right", .single (.ofKind head)⟩,
    .field ⟨"body", .single (.ofKind .awaitExpression)⟩], ?_, rfl, Members.ofList_nil.symm⟩, rfl⟩
  exact .cons (.single rfl (Node.ofJson_type head)) (.cons (.single rfl (Node.ofJson_type _)) .nil)

theorem preorder_forOf (head : Kind) :
    ∃ w a, (Visit.ofRoot (forOfNode head)).preorder = [Visit.ofRoot (forOfNode head), w, a] ∧
      w.node = .ofKind head ∧ a.node = .ofKind .awaitExpression ∧
        Iterates (Visit.ofRoot (forOfNode head)) a := by
  have hparts : ∃ w a, (Visit.ofRoot (forOfNode head)).parts = [w, a] ∧ w.node = .ofKind head ∧
      a.node = .ofKind .awaitExpression ∧ a.field? = some "body" :=
    ⟨_, _, rfl, rfl, rfl, rfl⟩
  obtain ⟨w, a, hparts, hw, ha, hbody⟩ := hparts
  have hleaf : ∀ (v : Visit) (kind : Kind), v.node = .ofKind kind → Branching.nodes v = [v] := by
    intro v kind hv
    have hnil : Branching.parts v = [] := by
      show Visit.number _ v.node.children _ _ = []
      rw [hv]
      rfl
    rw [Branching.nodes_eq, hnil]
    rfl
  have hmem : a ∈ (Visit.ofRoot (forOfNode head)).parts := by simp [hparts]
  refine ⟨w, a, ?_, hw, ha, rfl, [], hmem, by simp, ?_⟩
  · rw [Visit.preorder_ofRoot, Branching.nodes_eq]
    show _ :: (Visit.ofRoot (forOfNode head)).parts.flatMap Branching.nodes = _
    rw [hparts, List.flatMap_cons, List.flatMap_cons, hleaf w _ hw, hleaf a _ ha]
    rfl
  · rw [List.headD_nil, inHead, hbody]
    rfl

theorem await_reported_forOf_await :
    Node.ofJson (forOf .awaitExpression) = .ok (forOfNode .awaitExpression) ∧
    ∃ a ∈ (Visit.ofRoot (forOfNode .awaitExpression)).preorder, a.node.kind = .awaitExpression ∧
      a.report name none ∈ Rule.reports [rule] (forOfNode .awaitExpression) := by
  obtain ⟨w, a, hpreorder, -, ha, hiterates⟩ := preorder_forOf .awaitExpression
  have hkind : a.node.kind = .awaitExpression := congrArg Node.kind ha
  have hmem : a ∈ (Visit.ofRoot (forOfNode .awaitExpression)).preorder := by simp [hpreorder]
  refine ⟨ofJson_forOf _, a, hmem, hkind, (await_reported_iff (ofJson_forOf _) hmem hkind).2
    ⟨_, ?_, hiterates, rfl⟩⟩
  rw [hpreorder]
  exact List.mem_cons_self

/-- Behind a head that ends with a function an `await` is missed, though the loop iterates it. -/
theorem await_missed_forOf_function :
    Node.ofJson (forOf .functionExpression) = .ok (forOfNode .functionExpression) ∧
    ∃ l ∈ (Visit.ofRoot (forOfNode .functionExpression)).preorder,
      ∃ a ∈ (Visit.ofRoot (forOfNode .functionExpression)).preorder,
        a.node.kind = .awaitExpression ∧
        Iterates l a ∧ a.report name none ∉ Rule.reports [rule]
          (forOfNode .functionExpression) := by
  obtain ⟨w, a, hpreorder, hw, ha, hiterates⟩ := preorder_forOf .functionExpression
  have hkind : a.node.kind = .awaitExpression := congrArg Node.kind ha
  have hmem : a ∈ (Visit.ofRoot (forOfNode .functionExpression)).preorder := by simp [hpreorder]
  refine ⟨ofJson_forOf _, _, by simp [hpreorder], a, hmem, hkind, hiterates, ?_⟩
  rw [report_mem_iff (ofJson_forOf _) hmem hkind, Marked.mem_nodes_iff,
    ← Visit.preorder_ofRoot, hpreorder]
  rintro ⟨l, hl, ⟨hloop, -⟩, hcloses⟩
  simp only [List.mem_cons, List.not_mem_nil, or_false] at hl
  rcases hl with rfl | rfl | rfl
  · cases hcloses
  · rw [hw] at hloop
    cases hloop
  · rw [ha] at hloop
    cases hloop

/-- Every report is on an `await` that some loop iterates, and the reports come in the order of the
nodes, one for each `await` at most. -/
theorem reports_sublist_iterated {json : Json} {root : Node} (h : Node.ofJson json = .ok root) :
    ∃ awaits : List Visit, awaits.Sublist (Visit.ofRoot root).preorder ∧
      (Rule.reports [rule] root).toList = awaits.map (fun a => a.report name none) ∧
      (awaits.map Visit.ordinal).Pairwise (· < ·) ∧
      ∀ a ∈ awaits, a.node.kind = .awaitExpression ∧
        ∃ l ∈ (Visit.ofRoot root).preorder, Iterates l a := by
  have hsublist :
      (((Branching.nodes (⟨Visit.ofRoot root, false⟩ : Marked)).filter Marked.isFound).map
      Marked.visit).Sublist (Visit.ofRoot root).preorder := by
    rw [Visit.preorder_ofRoot, ← Marked.map_visit_nodes ⟨Visit.ofRoot root, false⟩]
    exact List.filter_sublist.map Marked.visit
  refine ⟨_, hsublist, ?_, ?_, ?_⟩
  · rw [toList_reports h, Marked.reports, List.map_map]
    rfl
  · have hordinals := hsublist.map Visit.ordinal
    rw [map_ordinal_preorder] at hordinals
    exact List.Pairwise.sublist hordinals List.pairwise_lt_range
  · intro a ha
    obtain ⟨m, hm, rfl⟩ := List.mem_map.1 ha
    obtain ⟨hmem, hfound⟩ := List.mem_filter.1 hm
    obtain ⟨hkind, hiteration⟩ := Bool.and_eq_true_iff.1 hfound
    refine ⟨beq_iff_eq.1 hkind, ?_⟩
    obtain ⟨l, hl, hiterates, -⟩ := Marked.exists_iterates _ m hmem hiteration
    rw [Visit.preorder_ofRoot]
    exact ⟨l, hl, hiterates⟩

theorem reports_sublist_iterated_forOf :
    Node.ofJson (forOf .awaitExpression) = .ok (forOfNode .awaitExpression) ∧
    ∃ awaits : List Visit, awaits.Sublist (Visit.ofRoot (forOfNode .awaitExpression)).preorder ∧
      (Rule.reports [rule] (forOfNode .awaitExpression)).toList =
        awaits.map (fun a => a.report name none) ∧
      (awaits.map Visit.ordinal).Pairwise (· < ·) ∧
      ∀ a ∈ awaits, a.node.kind = .awaitExpression ∧
        ∃ l ∈ (Visit.ofRoot (forOfNode .awaitExpression)).preorder, Iterates l a :=
  ⟨ofJson_forOf _, reports_sublist_iterated (ofJson_forOf _)⟩

end Arborist.Rule.AwaitInLoop
