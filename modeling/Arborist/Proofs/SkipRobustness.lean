import Arborist.Proofs.SharedPass

/-!
# Built-in rules among rules that skip

Other rules may skip whatever they like, also inside the head of a loop or at a function, and then a
rule is told of the entering and the leaving of a node but of nothing in between.  A rule is steady
if this cannot confuse it: what it is told of below a node makes no difference to its state once the
node is left.  The nodes that a steady rule is told of then get the reports that they get when it is
told of everything (`reports_trace`).

All built-in rules are steady.  For the one on `await` in loops this is what is known of its scopes:
they are the same after a node as if the node had been skipped.
-/

namespace Arborist

namespace Rule

def hear (r : Rule) (events : List (Event Visit)) (state : r.State) : r.State × List Call :=
  r.heed (events.map fun e => (e, .blank)) state

def pass (r : Rule) (v : Visit) (state : r.State) : r.State :=
  (r.leave v .blank (r.enter v .blank state).1).1

/-- A rule that reports on nothing but the node it enters, and to which it makes no difference in
the end what it is told of below a node.  `Fits` says which states can be met at a depth. -/
structure Steady (r : Rule) (Fits : Nat → r.State → Prop) : Prop where
  create : Fits 0 (r.create .empty)
  enter : ∀ (v : Visit) (state : r.State), Fits v.depth state →
    Fits (v.depth + 1) (r.enter v .blank state).1
  pass : ∀ (v : Visit) (state : r.State), Fits v.depth state → Fits v.depth (r.pass v state)
  leave : ∀ (v : Visit) (state : r.State), Fits v.depth state →
    (r.leave v .blank (v.parts.foldl (fun state p => r.pass p state) (r.enter v .blank state).1)).1
    = r.pass v state
  own : ∀ (v : Visit) (state : r.State), ∀ report ∈ (r.enter v .blank state).2.reports,
    report.ordinal = v.ordinal
  quiet : ∀ (v : Visit) (state : r.State), (r.leave v .blank state).2.reports = []

def reportsOn (r : Rule) (events : List (Event Visit)) (state : r.State) : List Report :=
  (r.hear events state).2.flatMap fun call => call.reaction.reports

theorem hear_append (r : Rule) (events events' : List (Event Visit)) (state : r.State) :
    (r.hear (events ++ events') state).1 = (r.hear events' (r.hear events state).1).1 := by
  rw [hear, List.map_append, heed_append]
  rfl

theorem reportsOn_append (r : Rule) (events events' : List (Event Visit)) (state : r.State) :
    r.reportsOn (events ++ events') state =
      r.reportsOn events state ++ r.reportsOn events' (r.hear events state).1 := by
  rw [reportsOn, hear, List.map_append, heed_append, List.flatMap_append]
  rfl

theorem reportsOn_cons (r : Rule) (e : Event Visit) (events : List (Event Visit))
    (state : r.State) :
    r.reportsOn (e :: events) state =
      (r.answer e .blank state).2.reports ++ r.reportsOn events (r.answer e .blank state).1 :=
  List.flatMap_cons

namespace Steady

open Branching

variable {r : Rule} {Fits : Nat → r.State → Prop} (h : r.Steady Fits)

include h

/-- After the events of a node the state is the same, whatever is skipped. -/
theorem hear_trace (control : Visit → Control) (v : Visit) :
    ∀ state, Fits v.depth state → (r.hear (trace control v) state).1 = r.pass v state := by
  induction v using parts_induction with
  | step v ih =>
      have hall : ∀ ps : List Visit, (∀ p ∈ ps, p ∈ v.parts) → ∀ state, Fits (v.depth + 1) state →
          (r.hear (ps.flatMap (trace control)) state).1 =
              ps.foldl (fun state p => r.pass p state) state := by
        intro ps
        induction ps with
        | nil => exact fun _ state _ => rfl
        | cons p ps ihps =>
            intro hps state hfits
            have hp := hps p List.mem_cons_self
            rw [← Visit.depth_of_mem_parts hp] at hfits
            have hpass := h.pass p state hfits
            rw [Visit.depth_of_mem_parts hp] at hpass
            rw [List.flatMap_cons, hear_append, ih p hp state hfits]
            exact ihps (fun q hq => hps q (List.mem_cons_of_mem p hq)) _ hpass
      intro state hfits
      cases hcontrol : control v with
      | skip =>
          rw [trace_of_skip hcontrol]
          rfl
      | descend =>
          rw [trace_of_descend hcontrol, hear_append, ← h.leave v state hfits,
            ← hall v.parts (fun _ hp => hp) _ (h.enter v state hfits)]
          rfl

theorem exists_enter_of_mem_reportsOn {events : List (Event Visit)} {report : Report} :
    ∀ state, report ∈ r.reportsOn events state → ∃ v, .enter v ∈ events ∧
      report.ordinal = v.ordinal := by
  induction events with
  | nil =>
      intro state hmem
      cases hmem
  | cons e events ih =>
      intro state hmem
      rw [reportsOn_cons, List.mem_append] at hmem
      rcases hmem with hmem | hmem
      · cases e with
        | enter v => exact ⟨v, List.mem_cons_self, h.own v state report hmem⟩
        | leave v =>
            rw [answer, h.quiet] at hmem
            cases hmem
      · obtain ⟨v, hv, hordinal⟩ := ih _ hmem
        exact ⟨v, List.mem_cons_of_mem e hv, hordinal⟩

/-- Leaving a node adds nothing to what was reported on it and below. -/
theorem reportsOn_node (v : Visit) (events : List (Event Visit)) (state : r.State) :
    r.reportsOn (.enter v :: events ++ [.leave v]) state =
      (r.enter v .blank state).2.reports ++ r.reportsOn events (r.enter v .blank state).1 := by
  have hleave : ∀ last, r.reportsOn [.leave v] last = [] := by
    intro last
    rw [reportsOn_cons, answer, h.quiet]
    rfl
  rw [reportsOn_append, hleave, List.append_nil, reportsOn_cons]
  rfl

/-- Nodes one after the other do not come in each other's way. -/
theorem reportsOn_flatMap {control : Visit → Control} {keep : Nat → Bool} {depth : Nat}
    {ps : List Visit} (hdepth : ∀ p ∈ ps, p.depth = depth)
    (hps : ∀ p ∈ ps, ∀ state, Fits p.depth state →
      r.reportsOn (trace control p) state =
        (r.reportsOn (trace (fun _ => .descend) p) state).filter fun report =>
          keep report.ordinal) :
    ∀ state, Fits depth state →
      r.reportsOn (ps.flatMap (trace control)) state =
        (r.reportsOn (ps.flatMap (trace fun _ => .descend)) state).filter fun report =>
          keep report.ordinal := by
  induction ps with
  | nil => exact fun state _ => rfl
  | cons p ps ih =>
      intro state hfits
      have hp := hdepth p List.mem_cons_self
      subst hp
      rw [List.flatMap_cons, List.flatMap_cons, reportsOn_append, reportsOn_append,
        List.filter_append, hps p List.mem_cons_self state hfits,
        h.hear_trace control p state hfits, h.hear_trace (fun _ => .descend) p state hfits]
      rw [ih (fun q hq => hdepth q (List.mem_cons_of_mem p hq))
        (fun q hq => hps q (List.mem_cons_of_mem p hq)) _
        (h.pass p state hfits)]

/-- Skipping takes away the reports on the nodes that are not entered and changes no others. -/
theorem reports_trace {control : Visit → Control} {keep : Nat → Bool} {v : Visit}
    (hnodup : (nodes v).Nodup)
    (hkeep : ∀ x ∈ nodes v, keep x.ordinal = false ↔ ∃ w ∈ nodes v, control w = .skip ∧
      x ∈ below w) :
    ∀ state, Fits v.depth state →
      r.reportsOn (trace control v) state =
        (r.reportsOn (trace (fun _ => .descend) v) state).filter fun report =>
          keep report.ordinal := by
  induction v using parts_induction with
  | step v ih =>
      have hpart : ∀ p ∈ v.parts, ∀ x ∈ nodes p,
          keep x.ordinal = false ↔ control v = .skip ∨ ∃ w ∈ nodes p, control w = .skip ∧
              x ∈ below w :=
        fun p hp x hx => (hkeep x (mem_nodes_trans (mem_nodes_of_mem_parts hp) hx)).trans
          (hidden_iff hnodup hp hx)
      intro state hfits
      -- the node itself is always entered
      have hself : ((r.enter v .blank state).2.reports.filter fun report => keep report.ordinal) =
          (r.enter v .blank state).2.reports := by
        refine List.filter_eq_self.2 fun report hreport => ?_
        rw [h.own v state report hreport, ← Bool.not_eq_false, hkeep v (self_mem_nodes v)]
        rintro ⟨w, hw, -, hbelow⟩
        exact not_mem_below hw hbelow
      rw [@trace_of_descend Visit _ (fun _ => .descend) v rfl, h.reportsOn_node,
        List.filter_append, hself]
      cases hcontrol : control v with
      | skip =>
          have hnone :
              ((r.reportsOn (v.parts.flatMap (trace fun _ => .descend))
                (r.enter v .blank state).1).filter
              fun report => keep report.ordinal) = [] := by
            rw [List.filter_eq_nil_iff]
            intro report hreport
            obtain ⟨x, hx, hordinal⟩ := h.exists_enter_of_mem_reportsOn _ hreport
            obtain ⟨p, hp, hxp⟩ := List.mem_flatMap.1 hx
            rw [hordinal, Bool.not_eq_true, hpart p hp x (value_mem_nodes hxp)]
            exact .inl hcontrol
          rw [trace_of_skip hcontrol]
          exact (h.reportsOn_node v [] state).trans (congrArg _ hnone.symm)
      | descend =>
          rw [trace_of_descend hcontrol, h.reportsOn_node]
          refine congrArg _ (h.reportsOn_flatMap (fun p hp => Visit.depth_of_mem_parts hp)
            (fun p hp => ?_) _
            (h.enter v state hfits))
          refine ih p hp (nodup_of_mem_parts hnodup hp) fun x hx => ?_
          rw [hpart p hp x hx, hcontrol]
          simp

end Steady

/-! ### Built-in rules -/

theorem steady_perNode (name description : String) {inspect : Visit → Option Report}
    (h : ∀ v report, inspect v = some report → report.ordinal = v.ordinal) :
    (perNode name description inspect).Steady fun _ _ => True where
  create := trivial
  enter _ _ _ := trivial
  pass _ _ _ := trivial
  leave _ _ _ := rfl
  own v _ report hreport := h v report (Option.mem_toList.1 hreport)
  quiet _ _ := rfl

theorem AwaitInLoop.steady_rule : AwaitInLoop.rule.Steady AwaitInLoop.Above where
  create _ hscope := by cases hscope
  enter _ _ habove := habove.enter
  pass _ _ habove := habove.passed
  leave _ _ habove := AwaitInLoop.leave_passedAll_parts habove
  own _ _ _ hreport := congrArg Report.ordinal (AwaitInLoop.eq_report_of_mem_enter hreport)
  quiet _ _ := rfl

end Rule

theorem Builtin.exists_steady (b : Builtin) : ∃ Fits, b.rule.Steady Fits := by
  refine b.rule_cases (P := fun r => ∃ Fits, r.Steady Fits) ?_ ⟨_, Rule.AwaitInLoop.steady_rule⟩
  intro name description inspect hinspect
  refine ⟨_, Rule.steady_perNode name description fun v report h => ?_⟩
  obtain ⟨extra, rfl⟩ := hinspect v report h
  rfl

namespace Rule

open Attendee Branching

theorem reports_of_mem_attendance {rules : List Rule} {root : Node} {x : Attendee}
    (hx : x ∈ attendance rules root) (hrule : x.rule.Oblivious) :
    x.reports = x.rule.reportsOn (heard rules root).events (x.rule.create .empty) := by
  obtain ⟨told, htold, hattend⟩ := (aligned_attendance rules root).exists_told x hx
  have hlog := hrule.log_attend told
  rw [hattend, htold] at hlog
  rw [Attendee.reports, hlog]
  rfl

theorem reports_builtin (b : Builtin) (root : Node) :
    (reports [b.rule] root).toList =
      b.rule.reportsOn (trace (fun _ => .descend) (Visit.ofRoot root)) (b.rule.create .empty) := by
  obtain ⟨x, hx, hrule⟩ := exists_attendance_singleton b.rule root
  have hskips : ∀ r ∈ [b.rule], r.NeverSkips :=
    fun r hr => List.mem_singleton.1 hr ▸ b.neverAsks_rule.neverSkips
  have hmem : x ∈ attendance [b.rule] root := by simp [hx]
  rw [toList_reports_singleton hx, reports_of_mem_attendance hmem (hrule ▸ b.blind_rule.oblivious),
    hrule, events_heard_of_neverSkips hskips, Visit.events_ofRoot]

/-- Whatever rules stand before and after a built-in rule, and wherever they skip, in the pass they
share the rule makes the reports that it makes alone, as far as the nodes are entered. -/
theorem builtin_reports_survive_skips (b : Builtin) (before after : List Rule) (root : Node) :
    ∃ earlier own later, Attended (before ++ b.rule :: after) root (earlier ++ own :: later) ∧
      earlier.map Attendee.rule = before ∧ own.rule = b.rule ∧ later.map Attendee.rule = after ∧
      (reports (before ++ b.rule :: after) root).toList =
        inEventOrder own.events.length (earlier ++ own :: later) ∧
      own.reports = (reports [b.rule] root).toList.filter fun report =>
        own.entered.contains report.ordinal := by
  have hattended := attended_attendance (before ++ b.rule :: after) root
  obtain ⟨earlier, rest, hsplit, hearlier, hrest⟩ := List.map_eq_append_iff.1 hattended.rules_eq
  obtain ⟨own, later, rfl, hown, hlater⟩ := List.map_eq_cons_iff.1 hrest
  have hmem : own ∈ attendance (before ++ b.rule :: after) root := by simp [hsplit]
  refine ⟨earlier, own, later, hsplit ▸ hattended, hearlier, hown, hlater, ?_, ?_⟩
  · rw [events_eq_seen _ root hmem, ← hsplit]
    exact reports_eq_inEventOrder _ root
  · obtain ⟨Fits, hsteady⟩ := b.exists_steady
    rw [reports_of_mem_attendance hmem (hown ▸ b.blind_rule.oblivious), hown, events_heard,
      reports_builtin]
    refine hsteady.reports_trace (Visit.nodup_nodes_ofRoot root) (fun x hx => ?_) _ hsteady.create
    rw [← mem_unseen_iff _ root hx, ← Bool.not_eq_true, List.contains_iff_mem,
      mem_entered_iff _ root hmem hx, not_not]

end Rule
end Arborist
