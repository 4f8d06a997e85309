import Arborist.Proofs.Dispatch
import Arborist.Rule.Builtin
import Mathlib.Data.List.Basic

/-!
# Several runs into one context

Rules may be run over one tree after the other with the same context.  Whatever the rules are, a run
only adds reports behind those it finds (`reports_prefix_reportInto`).  A rule is blind if it looks
neither at the context it is created from nor at the scenes it is called in; for blind rules the
earlier reports might as well not be there (`reportInto_of_blind`), so that the runs can be taken
one by one.  The built-in rules are blind.
-/

namespace Arborist

universe u

/-- A rule to which it makes no difference what has been reported before, or asked for by other
rules: its making and its answers are the same in every `Scene`. -/
structure Rule.Blind (r : Rule) : Prop where
  create : ∀ c c', r.create c = r.create c'
  enter : ∀ v s s' state, r.enter v s state = r.enter v s' state
  leave : ∀ v s s' state, r.leave v s state = r.leave v s' state

/-- All built-in rules but `Builtin.awaitInLoop` are made by `Rule.perNode` from an inspection that
reports the node itself, so that two cases are enough for what holds of all of them. -/
theorem Builtin.rule_cases {P : Rule → Prop}
    (hperNode : ∀ name description inspect,
      (∀ v report, inspect v = some report → ∃ extra, report = v.report name extra) →
        P (Rule.perNode name description inspect))
    (hawait : P Rule.AwaitInLoop.rule) (b : Builtin) : P b.rule := by
  cases b with
  | newArray =>
      refine hperNode _ _ _ fun v report h => ?_
      obtain ⟨-, h⟩ := Option.ite_none_right_eq_some.1 h
      exact ⟨none, (Option.some.inj h).symm⟩
  | debugger =>
      refine hperNode _ _ _ fun v report h => ?_
      obtain ⟨-, h⟩ := Option.ite_none_right_eq_some.1 h
      exact ⟨none, (Option.some.inj h).symm⟩
  | eval callees =>
      refine hperNode _ _ _ fun v report h => ?_
      obtain ⟨callee, -, h⟩ := Option.bind_eq_some_iff.1 h
      obtain ⟨-, -, h⟩ := Option.bind_eq_some_iff.1 h
      exact ⟨_, (Option.some.inj h).symm⟩
  | awaitInLoop => exact hawait

theorem Builtin.blind_rule (b : Builtin) : b.rule.Blind := by
  refine b.rule_cases (fun name description inspect _ => ?_) ?_
  · exact ⟨fun _ _ => rfl, fun _ _ _ _ => rfl, fun _ _ _ _ => rfl⟩
  · exact ⟨fun _ _ => rfl, fun _ _ _ _ => rfl, fun _ _ _ _ => rfl⟩

/-! ### Reports behind others -/

def Context.behind (before c : Context) : Context := before.add c.reports.toList

def Scene.behind (before : Context) (s : Scene) : Scene := ⟨before.behind s.context, s.skipping⟩

def Pass.behind (before : Context) (p : Pass) : Pass := ⟨p.running, before.behind p.context⟩

theorem Context.behind_empty (before : Context) : before.behind .empty = before :=
  before.add_nil

theorem Context.behind_add (before c : Context) (rs : List Report) :
    (before.behind c).add rs = before.behind (c.add rs) := by
  rw [behind, add_add, behind, toList_reports_add]

theorem Scene.behind_after (before : Context) (s : Scene) (r : Reaction) :
    (s.behind before).after r = (s.after r).behind before := by
  simp only [after, behind, Context.behind_add]

/-! ### One event -/

section CallAll

variable {α : Type u} {call : α → Scene → α × Scene} {xs : List α}

variable (call) in
theorem forall_mem_callAll {P : α → Prop} (hcall : ∀ x s, P x → P (call x s).1) (h : ∀ x ∈ xs, P x)
    (s : Scene) :
    ∀ y ∈ (callAll call xs s).1, P y := by
  induction xs generalizing s with
  | nil =>
      intro y hy
      cases hy
  | cons x xs ih =>
      rw [callAll_cons]
      intro y hy
      rcases List.mem_cons.1 hy with rfl | hy
      · exact hcall x s (h x List.mem_cons_self)
      · exact ih (fun z hz => h z (List.mem_cons_of_mem x hz)) _ y hy

/-- If no single call depends on earlier reports, calling one after the other does not either. -/
theorem callAll_behind {before : Context}
    (h : ∀ x ∈ xs, ∀ s, call x (s.behind before) = ((call x s).1, (call x s).2.behind before))
    (s : Scene) :
    callAll call xs (s.behind before) =
      ((callAll call xs s).1, (callAll call xs s).2.behind before) := by
  induction xs generalizing s with
  | nil => rfl
  | cons x xs ih =>
      rw [callAll_cons, callAll_cons, h x List.mem_cons_self, ih fun z hz =>
        h z (List.mem_cons_of_mem x hz)]

theorem reports_prefix_callAll
    (h : ∀ x s, s.context.reports.toList <+: (call x s).2.context.reports.toList) (s : Scene) :
    s.context.reports.toList <+: (callAll call xs s).2.context.reports.toList := by
  induction xs generalizing s with
  | nil => exact List.prefix_rfl
  | cons x xs ih =>
      rw [callAll_cons]
      exact (h x s).trans (ih _)

end CallAll

theorem Scene.reports_prefix_after (s : Scene) (r : Reaction) :
    s.context.reports.toList <+: (s.after r).context.reports.toList := by
  rw [after, Context.toList_reports_add]
  exact List.prefix_append _ _

namespace Running

variable {x : Running}

theorem enter_behind (h : x.rule.Blind) (v : Visit) (before : Context) (s : Scene) :
    x.enter v (s.behind before) = ((x.enter v s).1, (x.enter v s).2.behind before) := by
  simp only [enter, h.enter v (s.behind before) s, Scene.behind_after]

theorem leave_behind (h : x.rule.Blind) (v : Visit) (before : Context) (s : Scene) :
    x.leave v (s.behind before) = ((x.leave v s).1, (x.leave v s).2.behind before) := by
  simp only [leave, h.leave v (s.behind before) s, Scene.behind_after]

end Running

/-! ### One run -/

namespace Rule

variable {rules : List Rule}

theorem start_of_blind (h : ∀ r ∈ rules, r.Blind) (before : Context) :
    start rules before = (start rules .empty).behind before := by
  have hrunning : (start rules before).running = (start rules .empty).running := by
    apply List.map_congr_left
    intro r hr
    rw [(h r hr).create before .empty]
  calc start rules before
      = ⟨(start rules .empty).running, before⟩ := by rw [← hrunning]; rfl
    _ = (start rules .empty).behind before := by rw [Pass.behind, start, Context.behind_empty]

/-- Blind rules do in a run what they would do without earlier reports. -/
theorem run_of_blind (h : ∀ r ∈ rules, r.Blind) (root : Node) (before : Context) :
    run rules root before = (run rules root .empty).behind before := by
  rw [run, run, Node.walk, Node.walk, Visit.walk, Branching.traverse_eq_visit, Visit.walk,
    Branching.traverse_eq_visit]
  -- the two passes go hand in hand: the same rules in the same states, and the earlier reports in
  -- one of them only
  apply And.left (Branching.visit_rel dispatching dispatching
    (R := fun p q => p = q.behind before ∧ ∀ x ∈ q.running, x.rule.Blind) ?_ ?_ _ _ _
    ⟨start_of_blind h before, ?_⟩)
  · intro v p q hpq
    obtain ⟨rfl, hq⟩ := hpq
    have hcall := callAll_behind (fun x hx s => Running.enter_behind (hq x hx) v before s)
        ⟨q.context, false⟩
    have hblind := forall_mem_callAll (fun r s => Running.enter r v s) (fun _ _ hx => hx) hq
        ⟨q.context, false⟩
    simp only [dispatching]
    exact ⟨⟨congrArg (fun c => (⟨c.1, c.2.context⟩ : Pass)) hcall, hblind⟩,
      congrArg (fun c => if c.2.skipping then Control.skip else Control.descend) hcall⟩
  · intro v p q hpq
    obtain ⟨rfl, hq⟩ := hpq
    have hcall := callAll_behind (fun x hx s => Running.leave_behind (hq x hx) v before s)
        ⟨q.context, false⟩
    have hblind := forall_mem_callAll (fun r s => Running.leave r v s) (fun _ _ hx => hx) hq
        ⟨q.context, false⟩
    exact ⟨congrArg (fun c => (⟨c.1, c.2.context⟩ : Pass)) hcall, hblind⟩
  · intro x hx
    obtain ⟨r, hr, rfl⟩ := List.mem_map.1 hx
    exact h r hr

theorem reportInto_of_blind (h : ∀ r ∈ rules, r.Blind) (root : Node) (before : Context) :
    (reportInto rules root before).reports.toList =
      before.reports.toList ++ (reports rules root).toList := by
  rw [reportInto, run_of_blind h, Pass.behind, Context.behind, Context.toList_reports_add]
  rfl

/-- Whatever rules do, the reports made before a run stay where they are. -/
theorem reports_prefix_reportInto (rules : List Rule) (root : Node) (before : Context) :
    before.reports.toList <+: (reportInto rules root before).reports.toList := by
  rw [reportInto, run, Node.walk, Visit.walk, Branching.traverse_eq_visit]
  apply Branching.visit_inv (I := fun p : Pass => before.reports.toList <+:
    p.context.reports.toList)
  · intro v p hp
    exact hp.trans (reports_prefix_callAll (fun _ s => s.reports_prefix_after _) ⟨p.context, false⟩)
  · intro v p hp
    exact hp.trans (reports_prefix_callAll (fun _ s => s.reports_prefix_after _) ⟨p.context, false⟩)
  · exact List.prefix_rfl

/-! ### Several runs -/

def reportAllInto (rules : List Rule) (trees : List Node) (context : Context) : Context :=
  trees.foldl (fun context tree => reportInto rules tree context) context

theorem reportAllInto_cons (rules : List Rule) (tree : Node) (trees : List Node)
    (context : Context) :
    reportAllInto rules (tree :: trees) context =
      reportAllInto rules trees (reportInto rules tree context) :=
  rfl

theorem reportAllInto_of_blind (h : ∀ r ∈ rules, r.Blind) (trees : List Node) (context : Context) :
    (reportAllInto rules trees context).reports.toList =
      context.reports.toList ++ trees.flatMap fun tree => (reports rules tree).toList := by
  induction trees generalizing context with
  | nil => exact (List.append_nil _).symm
  | cons tree trees ih =>
      rw [reportAllInto_cons, ih, reportInto_of_blind h, List.flatMap_cons, List.append_assoc]

/-- Running built-in rules over several trees with one context adds, tree by tree, the reports of a
run with a context of its own.  Any rules whatever, which may look at the reports so far, leave
those before a run as they are and in their place. -/
theorem context_reuse_concatenates (builtins : List Builtin) (trees : List Node)
    (context : Context) :
    (reportAllInto (builtins.map Builtin.rule) trees context).reports.toList =
        context.reports.toList ++ trees.flatMap
          (fun tree => (reports (builtins.map Builtin.rule) tree).toList) ∧
      ∀ (rules : List Rule) (before : List Node) (tree : Node),
        (reportAllInto rules before context).reports.toList <+:
          (reportAllInto rules (before ++ [tree]) context).reports.toList := by
  constructor
  · apply reportAllInto_of_blind
    intro r hr
    obtain ⟨b, -, rfl⟩ := List.mem_map.1 hr
    exact b.blind_rule
  · intro rules before tree
    rw [reportAllInto, reportAllInto, List.foldl_append]
    exact reports_prefix_reportInto rules tree _

end Rule
end Arborist
