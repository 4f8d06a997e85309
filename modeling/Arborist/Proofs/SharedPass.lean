import Arborist.Proofs.Oblivious
import Mathlib.Data.List.Induction
import Mathlib.Data.List.Perm.Basic

/-!
# One pass for many rules

Rules that share a pass have to share what is skipped: every rule is told the same events, those of
the whole walk but for what lies below the nodes at which any of them asks to skip.  For oblivious
rules the order in which they are listed matters for nothing but the order of the reports made at
one and the same event.  It is not enough that they look at no reports: a rule behind another one
can see that it has asked to skip, even if it was too late to do so (`spy`).

They do not have to share anything else.  If none of them ever skips, and none minds what the others
do (`Unminding`), the reports of the pass are those that the rules make one by one, merged in the
order of events.
-/

namespace Arborist

namespace Attendee

/-! ### Reports in the order of events -/

theorem reports_reactionAt (x : Attendee) (k : Nat) :
    (x.reactionAt k).reports = ((x.log.map fun call => call.reaction.reports)[k]?).getD [] := by
  rw [reactionAt, List.getElem?_map]
  cases x.log[k]? with
  | none => rfl
  | some call => rfl

/-- Only the reports in the logs matter. -/
theorem inEventOrder_congr {xs ys : List Attendee}
    (h : (xs.map fun x => x.log.map fun call => call.reaction.reports) =
      ys.map fun y => y.log.map fun call => call.reaction.reports) (n : Nat) :
    inEventOrder n xs = inEventOrder n ys := by
  have hview : ∀ zs : List Attendee, inEventOrder n zs = (List.range n).flatMap fun k =>
      (zs.map fun z => z.log.map fun call => call.reaction.reports).flatMap fun log =>
          log[k]?.getD [] := by
    intro zs
    simp only [inEventOrder, reports_reactionAt, List.flatMap_map]
  rw [hview, hview, h]

theorem flatMap_reactionAt (x : Attendee) :
    ((List.range x.log.length).flatMap fun k => (x.reactionAt k).reports) = x.reports := by
  have hlog : ∀ log : List (List Report),
      ((List.range log.length).flatMap fun k => log[k]?.getD []) = log.flatten := by
    intro log
    induction log using List.reverseRecOn with
    | nil => rfl
    | append_singleton log last ih =>
        have hbefore : ((List.range log.length).flatMap fun k => (log ++ [last])[k]?.getD []) =
            log.flatten := by
          rw [← ih]
          exact List.flatMap_congr fun k hk =>
            by rw [List.getElem?_append_left (List.mem_range.1 hk)]
        rw [List.length_append, List.length_singleton, List.range_succ,
          List.flatMap_append, hbefore]
        simp
  have hreports := hlog (x.log.map fun call => call.reaction.reports)
  rw [List.length_map, ← List.flatMap_def] at hreports
  simp only [reports_reactionAt]
  exact hreports

theorem inEventOrder_singleton (x : Attendee) : inEventOrder x.log.length [x] = x.reports := by
  rw [← flatMap_reactionAt]
  simp only [inEventOrder, List.flatMap_singleton]

/-- The order of events neither adds nor drops a report. -/
theorem inEventOrder_perm {xs : List Attendee} {n : Nat} (h : ∀ x ∈ xs, x.log.length = n) :
    (inEventOrder n xs).Perm (xs.flatMap reports) := by
  induction xs with
  | nil => simp [inEventOrder]
  | cons x xs ih =>
      have hx : ((List.range n).flatMap fun k => (x.reactionAt k).reports) = x.reports := by
        rw [← h x List.mem_cons_self, flatMap_reactionAt]
      have hsplit := List.flatMap_append_perm (List.range n) (fun k => (x.reactionAt k).reports)
        fun k => xs.flatMap fun y => (y.reactionAt k).reports
      rw [List.flatMap_cons, ← hx]
      exact hsplit.symm.trans ((ih fun y hy => h y (List.mem_cons_of_mem x hy)).append_left _)

theorem enter_mem_events {x : Attendee} {w : Visit} (h : w ∈ x.log.filterMap Call.skip?) :
    .enter w ∈ x.events := by
  obtain ⟨⟨e, reaction⟩, hcall, hskip⟩ := List.mem_filterMap.1 h
  have hevent : e = .enter w := by
    cases e with
    | enter v => simp_all [Call.skip?]
    | leave v => cases hskip
  exact List.mem_map.2 ⟨_, hcall, hevent⟩

end Attendee

namespace Rule

open Attendee

/-- Whoever asks to skip, all rules are told of the node itself, and that it is left. -/
theorem mem_events_of_mem_skips {rules : List Rule} {root : Node} {w : Visit}
    (hw : w ∈ skips (attendance rules root)) {x : Attendee} (hx : x ∈ attendance rules root) :
    .enter w ∈ x.events ∧ .leave w ∈ x.events := by
  obtain ⟨y, hy, hskip⟩ := List.mem_flatMap.1 hw
  have henter := enter_mem_events hskip
  rw [events_eq_seen rules root hy] at henter
  rw [events_eq_seen rules root hx]
  refine ⟨henter, List.mem_filter.2 ⟨?_, (List.mem_filter.1 henter).2⟩⟩
  rw [Visit.events_ofRoot]
  exact (Branching.mem_trace_descend (mem_nodes_of_mem_skips rules root hw)).2

theorem map_log_attendance {rules : List Rule} (hrules : ∀ r ∈ rules, r.Oblivious) (root : Node) :
    (attendance rules root).map Attendee.log =
      rules.map fun r => (r.follow (heard rules root).events).log :=
  map_log_attendance_of_log fun _ hx => (aligned_attendance rules root).log_eq hrules hx

theorem seen_eq_heard (rules : List Rule) (root : Node) :
    seen root (attendance rules root) = (heard rules root).events := by
  rw [seen_eq_trace, events_heard]

/-! ### Asking to skip when a node is left -/

theorem oblivious_of_mem_map_muted {rules : List Rule} (hrules : ∀ r ∈ rules, r.Oblivious) :
    ∀ r ∈ rules.map muted, r.Oblivious := by
  intro r hr
  obtain ⟨q, hq, rfl⟩ := List.mem_map.1 hr
  exact (hrules q hq).muted

theorem heard_muted {rules : List Rule} (hrules : ∀ r ∈ rules, r.Oblivious) (root : Node) :
    heard (rules.map muted) root = heard rules root := by
  refine heard_eq (oblivious_of_mem_map_muted hrules) hrules (fun events v => ?_) root
  rw [List.any_map]
  exact congrArg (rules.any ·) (funext fun r => r.asks_muted events v)

theorem map_log_attendance_muted {rules : List Rule} (hrules : ∀ r ∈ rules, r.Oblivious)
    (root : Node) :
    (attendance (rules.map muted) root).map Attendee.log =
      (attendance rules root).map fun x => x.log.map Call.muted := by
  have hlogs := congrArg (List.map (List.map Call.muted)) (map_log_attendance hrules root)
  rw [List.map_map, List.map_map] at hlogs
  rw [map_log_attendance (oblivious_of_mem_map_muted hrules), heard_muted hrules, List.map_map]
  refine Eq.trans ?_ hlogs.symm
  exact List.map_congr_left fun r _ => r.log_muted _

theorem reports_muted {rules : List Rule} (hrules : ∀ r ∈ rules, r.Oblivious) (root : Node) :
    reports (rules.map muted) root = reports rules root := by
  have hreports : ∀ call : Call, call.muted.reaction.reports = call.reaction.reports := by
    rintro ⟨e, reaction⟩
    cases e <;> rfl
  have hview := congrArg (List.map (List.map fun call : Call => call.reaction.reports))
    (map_log_attendance_muted hrules root)
  simp only [List.map_map, Function.comp_def, hreports] at hview
  refine Array.toList_inj.1 ?_
  rw [reports_eq_inEventOrder, reports_eq_inEventOrder, seen_eq_heard, seen_eq_heard,
    heard_muted hrules, inEventOrder_congr hview]

/-- In a pass every rule is told the same events: the whole walk without what lies strictly below
the nodes at which one of them asks to skip on entering.  Of such a node all of them are told, and
of its leaving, and their reports are made event by event.  If the rules are oblivious, then asking
to skip on leaving changes nothing, and listing them in another order changes neither the events nor
what any of them reports. -/
theorem skips_are_shared (rules : List Rule) (root : Node) :
    ∃ xs, Attended rules root xs ∧
      (∀ x ∈ xs, x.events = seen root xs) ∧
      (∀ w ∈ skips xs, ∀ x ∈ xs, .enter w ∈ x.events ∧ .leave w ∈ x.events) ∧
      (reports rules root).toList = inEventOrder (seen root xs).length xs ∧
      ((∀ r ∈ rules, r.Oblivious) →
        (∃ ys, Attended (rules.map muted) root ys ∧ seen root ys = seen root xs ∧
          ys.map Attendee.log = xs.map (fun x => x.log.map Call.muted) ∧
          reports (rules.map muted) root = reports rules root) ∧
        ∀ rules' : List Rule, rules'.Perm rules → ∃ ys, Attended rules' root ys ∧
          seen root ys = seen root xs ∧
          (ys.map fun y => (y.rule, y.log)).Perm (xs.map fun x => (x.rule, x.log)) ∧
          (reports rules' root).toList = inEventOrder (seen root ys).length ys) := by
  refine ⟨attendance rules root, attended_attendance rules root,
    fun x hx => events_eq_seen rules root hx, fun w hw x hx => mem_events_of_mem_skips hw hx,
    reports_eq_inEventOrder rules root, fun hrules => ⟨?_, ?_⟩⟩
  · refine ⟨attendance (rules.map muted) root, attended_attendance _ root, ?_,
      map_log_attendance_muted hrules root, reports_muted hrules root⟩
    rw [seen_eq_heard, seen_eq_heard, heard_muted hrules]
  · intro rules' hperm
    have hrules' : ∀ r ∈ rules', r.Oblivious := fun r hr => hrules r (hperm.mem_iff.1 hr)
    have hheard : heard rules' root = heard rules root :=
      heard_eq hrules' hrules (fun events v => hperm.any_eq) root
    refine ⟨attendance rules' root, attended_attendance rules' root, ?_, ?_,
      reports_eq_inEventOrder rules' root⟩
    · rw [seen_eq_heard, seen_eq_heard, hheard]
    · rw [map_attendance hrules', map_attendance hrules, hheard]
      exact hperm.map _

end Rule

def immediateCall : Node :=
  ⟨.callExpression, none,
    [⟨"callee", .single ⟨.functionExpression, none, [⟨"id", .single (.ofKind .identifier)⟩], [],
      none⟩⟩, ⟨"arguments", .sequence [none, some (.ofKind .identifier)]⟩], [], none⟩

/-- Skips functions, and asks to skip whenever a node is left, when it is too late. -/
def functionSkipper : Script :=
  ⟨"skipper", [⟨[.kind "FunctionExpression"], [.report "skipped" none, .skip]⟩],
    [⟨[], [.skip]⟩], false⟩

def nodeCounter : Script :=
  ⟨"counter", [⟨[], [.count "entered"]⟩], [⟨[.kind "Identifier"], [.report "left" none]⟩], true⟩

theorem oblivious_skipper_counter :
    ∀ r ∈ [functionSkipper.rule, nodeCounter.rule], r.Oblivious := by
  intro r hr
  rw [List.mem_cons, List.mem_singleton] at hr
  rcases hr with rfl | rfl
  · exact Script.oblivious_rule (by simp [Script.Uncounting, functionSkipper])
      (by simp [Script.Uncounting, functionSkipper])
  · exact Script.oblivious_rule (by simp [Script.Uncounting, nodeCounter])
      (by simp [Script.Uncounting, nodeCounter])

namespace Rule

open Attendee

/-- The name of the function is not entered, and the two reports on the function are made in the
order of the rules. -/
theorem checkIds_immediateCall :
    ((reports [functionSkipper.rule, nodeCounter.rule] immediateCall).toList.map fun r =>
      (r.checkId, r.ordinal)) =
      [("entered-1", 0), ("skipped", 1), ("entered-2", 1), ("entered-3", 3), ("left", 3)] ∧
    ((reports [nodeCounter.rule, functionSkipper.rule] immediateCall).toList.map fun r =>
      (r.checkId, r.ordinal)) =
      [("entered-1", 0), ("entered-2", 1), ("skipped", 1), ("entered-3", 3), ("left", 3)] := by
  simp [reports, reportInto, run, Node.walk, Visit.walk, Branching.traverse_eq_visit,
    Branching.visit_eq, dispatching, callAll, start, Running.enter, Running.leave, Script.rule,
    Script.respond, functionSkipper, nodeCounter, Script.Handler.run, Script.Condition.holds,
    Script.Action.perform, Scene.after, Context.add, Context.empty, immediateCall, Visit.ofRoot,
    Kind.functionExpression, Visit.report, Branching.parts, Visit.parts, Node.children,
    Visit.number, Slot.nodes, Kind.callExpression, Kind.identifier, Node.ofKind, Node.shape_eq,
    Node.parts, Shape.ofParts]
  decide

theorem skips_are_shared_immediateCall :
    (∀ r ∈ [functionSkipper.rule, nodeCounter.rule], r.Oblivious) ∧
    ((reports [functionSkipper.rule, nodeCounter.rule] immediateCall).toList.map fun r =>
      (r.checkId, r.ordinal)) =
      [("entered-1", 0), ("skipped", 1), ("entered-2", 1), ("entered-3", 3), ("left", 3)] ∧
    ((reports [nodeCounter.rule, functionSkipper.rule] immediateCall).toList.map fun r =>
      (r.checkId, r.ordinal)) =
      [("entered-1", 0), ("entered-2", 1), ("skipped", 1), ("entered-3", 3), ("left", 3)] ∧
    ∃ xs ys, Attended [functionSkipper.rule, nodeCounter.rule] immediateCall xs ∧
      Attended [nodeCounter.rule, functionSkipper.rule] immediateCall ys ∧
      (∀ x ∈ xs, x.events = seen immediateCall xs) ∧ seen immediateCall ys = seen immediateCall xs ∧
      (ys.map fun y => (y.rule, y.log)).Perm (xs.map fun x => (x.rule, x.log)) := by
  obtain ⟨xs, hxs, hevents, -, -, h⟩ :=
    skips_are_shared [functionSkipper.rule, nodeCounter.rule] immediateCall
  obtain ⟨ys, hys, hseen, hlogs, -⟩ :=
    (h oblivious_skipper_counter).2 _ (.swap functionSkipper.rule nodeCounter.rule [])
  exact ⟨oblivious_skipper_counter, checkIds_immediateCall.1, checkIds_immediateCall.2, xs, ys, hxs,
    hys, hevents, hseen, hlogs⟩

/-! ### Rules that look at what others ask for -/

def skipper : Rule where
  name := "skipper"
  description := ""
  State := Unit
  create _ := ()
  enter _ _ _ := ((), ⟨[], true⟩)
  leave _ _ _ := ((), ⟨[], true⟩)
  summary _ := .null

/-- Reports every event at which a rule before it has asked to skip, and looks at no report. -/
def spy : Rule where
  name := "spy"
  description := ""
  State := Unit
  create _ := ()
  enter v s _ := ((), ⟨if s.skipping then [v.report "enter" none] else [], false⟩)
  leave v s _ := ((), ⟨if s.skipping then [v.report "leave" none] else [], false⟩)
  summary _ := .null

theorem ignoresReports_skipper_spy : ∀ r ∈ [skipper, spy], r.IgnoresReports := by
  intro r hr
  rw [List.mem_cons, List.mem_singleton] at hr
  rcases hr with rfl | rfl
  · refine ignoresReports_of_answer fun e s s' state _ => ?_
    cases e <;> rfl
  · refine ignoresReports_of_answer fun e s s' state hskipping => ?_
    cases e with
    | enter v => simp only [answer, spy, hskipping]
    | leave v => simp only [answer, spy, hskipping]

/-- A rule that looks at no report can tell whether it stands behind one that asks to skip, and
that one need not even do so when the node is entered. -/
theorem asking_seen_by_later_rules :
    (∀ r ∈ [skipper, spy], r.IgnoresReports) ∧ [spy, skipper].Perm [skipper, spy] ∧
    (reports [skipper, spy] (.ofKind .identifier)).toList.map Report.checkId =
      ["enter", "leave"] ∧
    (reports [spy, skipper] (.ofKind .identifier)).toList.map Report.checkId = [] ∧
    (reports ([skipper, spy].map muted) (.ofKind .identifier)).toList.map Report.checkId =
      ["enter"] := by
  refine ⟨ignoresReports_skipper_spy, .swap skipper spy [], ?_⟩
  simp only [reports, reportInto, run_ofKind]
  exact ⟨rfl, rfl, rfl⟩

/-! ### Rules that never skip -/

theorem events_heard_of_neverSkips {rules : List Rule} (hrules : ∀ r ∈ rules, r.NeverSkips)
    (root : Node) : (heard rules root).events = (Visit.ofRoot root).events fun _ => .descend := by
  have haligned := aligned_attendance rules root
  have hskips : skips (attendance rules root) = [] := by
    rw [skips, List.flatMap_eq_nil_iff]
    intro x hx
    have hrule : x.rule.NeverSkips := hrules x.rule (haligned.rules_eq ▸ List.mem_map_of_mem hx)
    obtain ⟨told, -, hattend⟩ := haligned.exists_told x hx
    rw [← hattend, List.filterMap_eq_nil_iff]
    exact hrule told
  rw [← seen_eq_heard, seen, unseen, hskips]
  simp

end Rule

/-- An attendee that never asks to skip and has not been told of anybody else asking. -/
structure Attendee.Calm (x : Attendee) : Prop where
  neverAsks : x.rule.NeverAsks
  exists_told : ∃ told, (∀ t ∈ told, t.2.skipping = false) ∧ x.rule.attend told = x

namespace Attendee

theorem Calm.skip_answer {x : Attendee} (h : x.Calm) (e : Event Visit) (s : Scene) :
    (x.rule.answer e s x.state).2.skip = false := by
  obtain ⟨told, -, hattend⟩ := h.exists_told
  refine h.neverAsks (told ++ [(e, s)]) ⟨e, _⟩ ?_
  rw [x.rule.attend_concat, hattend]
  exact List.mem_append_right _ (List.mem_singleton_self _)

theorem Calm.answer {x : Attendee} (h : x.Calm) (e : Event Visit) {s : Scene}
    (hs : s.skipping = false) : (x.answer e s).1.Calm where
  neverAsks := h.neverAsks
  exists_told := by
    obtain ⟨told, htold, hattend⟩ := h.exists_told
    refine ⟨told ++ [(e, s)], ?_, ?_⟩
    · exact List.forall_mem_append.2 ⟨htold, List.forall_mem_singleton.2 hs⟩
    · exact (x.rule.attend_concat told e s).trans (by rw [hattend])

/-- Where nobody asks, nobody is told of it, so that everybody stays calm. -/
theorem calm_callAll {xs : List Attendee} (h : ∀ x ∈ xs, x.Calm) (e : Event Visit) {s : Scene}
    (hs : s.skipping = false) : ∀ y ∈ (callAll (Attendee.answer e) xs s).1, y.Calm := by
  induction xs generalizing s with
  | nil =>
      intro y hy
      cases hy
  | cons x xs ih =>
      rw [List.forall_mem_cons] at h
      have hnext : (x.answer e s).2.skipping = false := by
        calc (x.answer e s).2.skipping
            = (s.skipping || (x.rule.answer e s x.state).2.skip) := rfl
          _ = false := by rw [hs, h.1.skip_answer e s, Bool.or_false]
      rw [callAll_cons, List.forall_mem_cons]
      exact ⟨h.1.answer e hs, ih h.2 hnext⟩

end Attendee

namespace Rule

open Attendee

theorem calm_attendance {rules : List Rule} (hrules : ∀ r ∈ rules, r.NeverAsks) (root : Node) :
    ∀ x ∈ attendance rules root, x.Calm := by
  refine Branching.visit_inv (l := attending)
    (I := fun p : List Attendee × Context => ∀ x ∈ p.1, x.Calm) ?_ ?_ _ _ ?_
  · intro v p hp
    exact calm_callAll hp (.enter v) rfl
  · intro v p hp
    exact calm_callAll hp (.leave v) rfl
  · intro x hx
    obtain ⟨r, hr, rfl⟩ := List.mem_map.1 hx
    exact ⟨hrules r hr, [], List.forall_mem_nil _, rfl⟩

/-- Rules that neither cut a pass short nor mind each other in it.  If they look at what other rules
ask for, nobody may ask for anything. -/
def Unminding (rules : List Rule) : Prop :=
  (∀ r ∈ rules, r.IgnoresReports ∧ r.NeverAsks) ∨ ∀ r ∈ rules, r.Oblivious ∧ r.NeverSkips

namespace Unminding

variable {rules rules' : List Rule}

theorem neverSkips (h : Unminding rules) : ∀ r ∈ rules, r.NeverSkips := by
  intro r hr
  rcases h with h | h
  · exact (h r hr).2.neverSkips
  · exact (h r hr).2

theorem of_subset (h : Unminding rules) (hsubset : rules' ⊆ rules) : Unminding rules' :=
  h.imp (fun h r hr => h r (hsubset hr)) fun h r hr => h r (hsubset hr)

theorem singleton (h : Unminding rules) {r : Rule} (hr : r ∈ rules) : Unminding [r] :=
  h.of_subset (List.cons_subset.2 ⟨hr, List.nil_subset _⟩)

theorem log_eq (h : Unminding rules) (root : Node) :
    ∀ x ∈ attendance rules root, x.log = (x.rule.follow (heard rules root).events).log := by
  intro x hx
  have haligned := aligned_attendance rules root
  rcases h with h | h
  · obtain ⟨told, htold, hattend⟩ :=
      (calm_attendance (fun r hr => (h r hr).2) root x hx).exists_told
    have hrule := (h x.rule (haligned.rules_eq ▸ List.mem_map_of_mem hx)).1
    rw [← haligned.events_eq hx, ← hattend, events_attend]
    refine hrule told _ ?_
    rw [List.map_map, List.map_map]
    refine List.map_congr_left fun t ht => ?_
    rw [htold t ht]
    rfl
  · exact haligned.log_eq (fun r hr => (h r hr).1) hx

theorem map_log_attendance (h : Unminding rules) (root : Node) :
    (attendance rules root).map Attendee.log =
      rules.map fun r => (r.follow ((Visit.ofRoot root).events fun _ => .descend)).log := by
  rw [map_log_attendance_of_log (h.log_eq root), events_heard_of_neverSkips h.neverSkips]

end Unminding

theorem unminding_of_builtin {rules : List Rule} (h : ∀ r ∈ rules, ∃ b : Builtin, b.rule = r) :
    Unminding rules := by
  refine .inl fun r hr => ?_
  obtain ⟨b, rfl⟩ := h r hr
  exact ⟨b.blind_rule.oblivious.ignoresReports, b.neverAsks_rule⟩

theorem unminding_builtins (bs : List Builtin) : Unminding (bs.map Builtin.rule) := by
  refine unminding_of_builtin fun r hr => ?_
  obtain ⟨b, -, hb⟩ := List.mem_map.1 hr
  exact ⟨b, hb⟩

/-- A rule that has a pass to itself. -/
theorem exists_attendance_singleton (r : Rule) (root : Node) :
    ∃ x, attendance [r] root = [x] ∧ x.rule = r :=
  List.map_eq_singleton_iff.1 (aligned_attendance [r] root).rules_eq

theorem toList_reports_singleton {r : Rule} {root : Node} {x : Attendee}
    (h : attendance [r] root = [x]) :
    (reports [r] root).toList = x.reports := by
  have hx : x ∈ attendance [r] root := by simp [h]
  rw [reports_eq_inEventOrder, ← events_eq_seen [r] root hx, h, Attendee.events, List.length_map,
    inEventOrder_singleton]

def solos (rules : List Rule) (root : Node) : List Attendee :=
  rules.flatMap fun r => attendance [r] root

theorem map_log_solos {rules : List Rule} (h : Unminding rules) (root : Node) :
    (solos rules root).map Attendee.log = (attendance rules root).map Attendee.log := by
  rw [h.map_log_attendance, solos, List.map_flatMap,
    List.flatMap_congr fun r hr => (h.singleton hr).map_log_attendance root]
  exact List.flatMap_pure_eq_map _ rules

theorem events_of_mem_solos {rules : List Rule} (h : Unminding rules) {root : Node} {x : Attendee}
    (hx : x ∈ solos rules root) : x.events = (Visit.ofRoot root).events fun _ => .descend := by
  obtain ⟨r, hr, hx⟩ := List.mem_flatMap.1 hx
  rw [(aligned_attendance [r] root).events_eq hx,
    events_heard_of_neverSkips (h.singleton hr).neverSkips]

theorem forall₂_solos (rules : List Rule) (root : Node) :
    List.Forall₂
      (fun r solo => Attended [r] root [solo] ∧ (reports [r] root).toList = solo.reports)
      rules (solos rules root) := by
  induction rules with
  | nil => exact .nil
  | cons r rules ih =>
      obtain ⟨x, hx, -⟩ := exists_attendance_singleton r root
      have hsolo : Attended [r] root [x] ∧ (reports [r] root).toList = x.reports := by
        rw [← hx]
        exact ⟨attended_attendance [r] root, toList_reports_singleton hx⟩
      rw [solos, List.flatMap_cons, hx]
      exact .cons hsolo ih

theorem flatMap_reports_solos (rules : List Rule) (root : Node) :
    (solos rules root).flatMap Attendee.reports =
      rules.flatMap fun r => (reports [r] root).toList := by
  rw [solos, List.flatMap_assoc]
  refine List.flatMap_congr fun r _ => ?_
  obtain ⟨x, hx, -⟩ := exists_attendance_singleton r root
  rw [toList_reports_singleton hx, hx, List.flatMap_singleton]

/-- The reports of a pass of rules that never ask to skip and look at no reports are those of the
rules one by one, merged in the order of events and within an event in the order of the rules.
Asking when a node is left does no harm if none of the rules looks at that either.  All built-in
rules are of both kinds. -/
theorem shared_pass_merges_solo_passes :
    (∀ b : Builtin, b.rule.Oblivious ∧ b.rule.NeverAsks) ∧
    ∀ (rules : List Rule) (root : Node),
      ((∀ r ∈ rules, r.IgnoresReports ∧ r.NeverAsks) ∨ ∀ r ∈ rules, r.Oblivious ∧ r.NeverSkips) →
      ∃ xs, List.Forall₂ (fun r x => Attended [r] root [x] ∧
          (reports [r] root).toList = x.reports) rules xs ∧
        (∀ x ∈ xs, x.events = (Visit.ofRoot root).events fun _ => .descend) ∧
        (reports rules root).toList =
          inEventOrder ((Visit.ofRoot root).events fun _ => .descend).length xs ∧
        (reports rules root).toList.Perm (rules.flatMap fun r => (reports [r] root).toList) := by
  refine ⟨fun b => ⟨b.blind_rule.oblivious, b.neverAsks_rule⟩, fun rules root hrules => ?_⟩
  have hrules : Unminding rules := hrules
  have hview := congrArg (List.map (List.map fun call : Call => call.reaction.reports))
    (map_log_solos hrules root)
  rw [List.map_map, List.map_map] at hview
  have hmerge : (reports rules root).toList =
      inEventOrder ((Visit.ofRoot root).events fun _ => .descend).length (solos rules root) := by
    rw [reports_eq_inEventOrder, seen_eq_heard, events_heard_of_neverSkips hrules.neverSkips]
    exact (inEventOrder_congr hview _).symm
  refine ⟨solos rules root, forall₂_solos rules root, fun x hx => events_of_mem_solos hrules hx,
    hmerge, ?_⟩
  rw [hmerge, ← flatMap_reports_solos]
  refine inEventOrder_perm fun x hx => ?_
  rw [← events_of_mem_solos hrules hx, Attendee.events, List.length_map]

end Rule

def pausingLoop : Node :=
  ⟨.whileStatement, none,
    [⟨"body", .single ⟨⟨"BlockStatement"⟩, none,
      [⟨"body", .sequence [some (.ofKind .debuggerStatement), none,
        some (.ofKind .awaitExpression)]⟩], [], none⟩⟩],
    [], none⟩

namespace Rule

open Attendee

theorem shared_pass_merges_solo_passes_pausingLoop :
    (∀ r ∈ [Builtin.awaitInLoop, .debugger, .debugger].map Builtin.rule,
      r.IgnoresReports ∧ r.NeverAsks) ∧
    ((reports ([Builtin.awaitInLoop, .debugger, .debugger].map Builtin.rule) pausingLoop).toList.map
        fun r => (r.checkId, r.ordinal)) =
          [("no-debugger", 2), ("no-debugger", 2), ("no-await-in-loop", 3)] ∧
    ∃ x y z, Attended [Builtin.awaitInLoop.rule] pausingLoop [x] ∧
      Attended [Builtin.debugger.rule] pausingLoop [y] ∧
      Attended [Builtin.debugger.rule] pausingLoop [z] ∧
      (reports ([Builtin.awaitInLoop, .debugger, .debugger].map Builtin.rule) pausingLoop).toList =
        inEventOrder ((Visit.ofRoot pausingLoop).events fun _ => .descend).length [x, y, z] := by
  have hrules : ∀ r ∈ [Builtin.awaitInLoop, .debugger, .debugger].map Builtin.rule,
      r.IgnoresReports ∧ r.NeverAsks := by
    intro r hr
    obtain ⟨b, -, rfl⟩ := List.mem_map.1 hr
    obtain ⟨hoblivious, hasks⟩ := shared_pass_merges_solo_passes.1 b
    exact ⟨hoblivious.ignoresReports, hasks⟩
  obtain ⟨xs, hsolos, -, hmerge, -⟩ :=
    shared_pass_merges_solo_passes.2 _ pausingLoop (.inl hrules)
  refine ⟨hrules, ?_, ?_⟩
  · simp [reports, reportInto, run, Node.walk, Visit.walk, Branching.traverse_eq_visit,
      Branching.visit_eq, dispatching, callAll, start, Running.enter, Running.leave, Builtin.rule,
      Debugger.rule, Debugger.inspect, AwaitInLoop.rule, AwaitInLoop.enter, AwaitInLoop.leave,
      AwaitInLoop.scope?, AwaitInLoop.loopScope, AwaitInLoop.runsPerIteration, perNode, Scene.after,
      Context.add, Context.empty, pausingLoop, Visit.ofRoot, Visit.report, Branching.parts,
      Visit.parts, Node.children, Visit.number, Slot.nodes, Node.ofKind, Node.shape_eq, Node.parts,
      Shape.ofParts, Reaction.none, Reaction.report, Debugger.name, AwaitInLoop.name,
      AwaitInLoop.Scope.depth, Kind.whileStatement, Kind.doWhileStatement, Kind.forStatement,
      Kind.forInStatement, Kind.forOfStatement, Kind.functionDeclaration, Kind.functionExpression,
      Kind.arrowFunctionExpression, Kind.debuggerStatement, Kind.awaitExpression]
  · rcases hsolos with _ | ⟨hx, _ | ⟨hy, _ | ⟨hz, _ | _⟩⟩⟩
    exact ⟨_, _, _, hx.1, hy.1, hz.1, hmerge⟩

end Rule
end Arborist
