import Arborist.Proofs.Attendance
import Arborist.Proofs.AwaitInLoop
import Arborist.Proofs.ContextReuse
import Arborist.Rule.Builtin
import Arborist.Rule.Script

/-!
# Rules that keep to what they are told

A rule may look at the reports of other rules and at whether one of them has just asked to skip.  It
is `Oblivious` if this makes no difference: told of the same events, it reacts in the same way
whatever the scenes are.  Both have to be left out of account, since a rule that looks at either can
tell which rules stand before it; a rule that `IgnoresReports` may still look at the second.  In a
pass of oblivious rules the log of a rule is a function of the events (`map_attendance`), and the
events are settled by which nodes any of the rules asks to skip, so that two passes in which this is
the same are told the same (`heard_eq`).

The built-in rules are blind, so they are oblivious (`Blind.oblivious`), and they never ask to skip.
A scripted rule is oblivious if none of its handlers depends on the number of reports, though it may
skip and count as it likes, and keep a trace of what it sees.
-/

namespace Arborist

def Scene.blank : Scene := ⟨.empty, false⟩

namespace Rule

/-- A rule whose reactions to events do not depend on the scenes: in its log there is nothing but
what it was told. -/
def Oblivious (r : Rule) : Prop :=
  ∀ told told' : List (Event Visit × Scene), told.map Prod.fst = told'.map Prod.fst →
    (r.attend told).log = (r.attend told').log

/-- A rule that may look at `Scene.skipping` but not at `Scene.context`.  What it does depends on
the events and on who has asked to skip before it, and on nothing else. -/
def IgnoresReports (r : Rule) : Prop :=
  ∀ told told' : List (Event Visit × Scene),
    (told.map fun t => (t.1, t.2.skipping)) = (told'.map fun t => (t.1, t.2.skipping)) →
      (r.attend told).log = (r.attend told').log

/-- A rule that never asks to skip when a node is entered. -/
def NeverSkips (r : Rule) : Prop :=
  ∀ told : List (Event Visit × Scene), ∀ call ∈ (r.attend told).log, call.skip? = none

/-- A rule that never asks to skip at all.  Asking when a node is left does not make the walk skip
anything, but the rules behind can see it. -/
def NeverAsks (r : Rule) : Prop :=
  ∀ told : List (Event Visit × Scene), ∀ call ∈ (r.attend told).log, call.reaction.skip = false

theorem Oblivious.ignoresReports {r : Rule} (h : r.Oblivious) : r.IgnoresReports := by
  intro told told' htold
  refine h told told' ?_
  have hevents := congrArg (List.map Prod.fst) htold
  rwa [List.map_map, List.map_map] at hevents

theorem NeverAsks.neverSkips {r : Rule} (h : r.NeverAsks) : r.NeverSkips := by
  intro told call hcall
  have hskip := h told call hcall
  obtain ⟨e, reaction⟩ := call
  cases e with
  | enter v => exact if_neg (Bool.eq_false_iff.1 hskip)
  | leave v => rfl

def follow (r : Rule) (events : List (Event Visit)) : Attendee :=
  r.attend (events.map fun e => (e, .blank))

theorem events_follow (r : Rule) (events : List (Event Visit)) :
    (r.follow events).events = events := by
  rw [follow, events_attend, List.map_map]
  exact List.map_id events

theorem Oblivious.log_attend {r : Rule} (h : r.Oblivious) (told : List (Event Visit × Scene)) :
    (r.attend told).log = (r.follow (told.map Prod.fst)).log := by
  refine h told _ ?_
  rw [List.map_map, List.map_map]
  rfl

/-- The log of a rule follows from what it was told and a view of the scenes if its states can be
compared such that under equal views comparable ones lead to equal reactions. -/
theorem log_eq_of_rel {α : Type*} (view : Scene → α) {r : Rule} {S : r.State → r.State → Prop}
    (hcreate : S (r.create .empty) (r.create .empty))
    (hanswer : ∀ e s s' a b, view s = view s' → S a b →
      S (r.answer e s a).1 (r.answer e s' b).1 ∧ (r.answer e s a).2 = (r.answer e s' b).2)
    {told told' : List (Event Visit × Scene)}
    (h : (told.map fun t => (t.1, view t.2)) = told'.map fun t => (t.1, view t.2)) :
    (r.attend told).log = (r.attend told').log := by
  have hheed : ∀ (told told' : List (Event Visit × Scene)) (a b : r.State), S a b →
      ((told.map fun t => (t.1, view t.2)) = told'.map fun t => (t.1, view t.2)) →
      (r.heed told a).2 = (r.heed told' b).2 := by
    intro told
    induction told with
    | nil =>
        intro told' a b _ h
        rw [List.map_eq_nil_iff.1 h.symm]
        rfl
    | cons t told ih =>
        intro told' a b hab h
        cases told' with
        | nil => cases h
        | cons t' told' =>
            obtain ⟨e, s⟩ := t
            obtain ⟨e', s'⟩ := t'
            rw [List.map_cons, List.map_cons, List.cons.injEq, Prod.mk.injEq] at h
            obtain ⟨⟨rfl, hview⟩, htold⟩ := h
            obtain ⟨hnext, hreaction⟩ := hanswer e s s' a b hview hab
            simp only [heed, hreaction, ih told' _ _ hnext htold]
  exact hheed told told' _ _ hcreate h

theorem oblivious_of_rel {r : Rule} {S : r.State → r.State → Prop}
    (hcreate : S (r.create .empty) (r.create .empty))
    (hanswer : ∀ e s s' a b, S a b →
      S (r.answer e s a).1 (r.answer e s' b).1 ∧ (r.answer e s a).2 = (r.answer e s' b).2) :
    r.Oblivious := by
  intro told told' h
  refine log_eq_of_rel (fun _ => ()) hcreate (fun e s s' a b _ => hanswer e s s' a b) ?_
  have hpaired := congrArg (List.map fun e => (e, ())) h
  rwa [List.map_map, List.map_map] at hpaired

/-- A rule ignores the reports if no answer depends on them. -/
theorem ignoresReports_of_answer {r : Rule}
    (h : ∀ e s s' state, s.skipping = s'.skipping → r.answer e s state = r.answer e s' state) :
    r.IgnoresReports := by
  intro told told' htold
  refine log_eq_of_rel Scene.skipping (S := Eq) rfl ?_ htold
  rintro e s s' a _ hskipping rfl
  rw [h e s s' a hskipping]
  exact ⟨rfl, rfl⟩

theorem Blind.oblivious {r : Rule} (h : r.Blind) : r.Oblivious := by
  refine oblivious_of_rel (S := Eq) rfl ?_
  rintro e s s' a _ rfl
  have hanswer : r.answer e s a = r.answer e s' a := by
    cases e with
    | enter v => exact h.enter v s s' a
    | leave v => exact h.leave v s s' a
  rw [hanswer]
  exact ⟨rfl, rfl⟩

/-- What holds of every answer of a rule holds of every call in its log. -/
theorem forall_mem_log {r : Rule} {P : Call → Prop} (h : ∀ e s state, P ⟨e, (r.answer e s state).2⟩)
    (told : List (Event Visit × Scene)) : ∀ call ∈ (r.attend told).log, P call := by
  have hheed : ∀ (told : List (Event Visit × Scene)) (state : r.State),
      ∀ call ∈ (r.heed told state).2, P call := by
    intro told
    induction told with
    | nil =>
        intro state call hcall
        cases hcall
    | cons t told ih =>
        intro state call hcall
        obtain ⟨e, s⟩ := t
        rcases List.mem_cons.1 hcall with rfl | hcall
        · exact h e s state
        · exact ih _ call hcall
  exact hheed told _

/-! ### Built-in rules -/

theorem neverAsks_perNode (name description : String) (inspect : Visit → Option Report) :
    (perNode name description inspect).NeverAsks := by
  refine forall_mem_log fun e s state => ?_
  cases e <;> rfl

theorem AwaitInLoop.neverAsks_rule : AwaitInLoop.rule.NeverAsks := by
  refine forall_mem_log fun e s scopes => ?_
  cases e with
  | enter v => exact congrArg Reaction.skip (AwaitInLoop.enter_reaction v scopes)
  | leave v => rfl

theorem AwaitInLoop.eq_report_of_mem_enter {v : Visit} {scopes : List AwaitInLoop.Scope}
    {report : Report} (h : report ∈ (AwaitInLoop.enter v scopes).2.reports) :
    report = v.report AwaitInLoop.name none := by
  rw [AwaitInLoop.enter_reaction] at h
  split at h
  · exact List.mem_singleton.1 h
  · cases h

end Rule

theorem Builtin.neverAsks_rule (b : Builtin) : b.rule.NeverAsks :=
  b.rule_cases (fun name description inspect _ => Rule.neverAsks_perNode name description inspect)
    Rule.AwaitInLoop.neverAsks_rule

/-- A built-in rule reports the node that it is told of, under its own name. -/
theorem Builtin.eq_report_of_mem_enter (b : Builtin) {v : Visit} {s : Scene} {state : b.rule.State}
    {report : Report} (h : report ∈ (b.rule.enter v s state).2.reports) :
    ∃ extra, report = v.report b.name extra := by
  refine b.rule_cases (P := fun r => ∀ state : r.State,
    report ∈ (r.enter v s state).2.reports → ∃ extra, report = v.report r.name extra) ?_ ?_ state h
  · intro name description inspect hinspect state h
    exact hinspect v report (Option.mem_toList.1 h)
  · intro scopes h
    exact ⟨none, Rule.AwaitInLoop.eq_report_of_mem_enter h⟩

/-- A built-in rule reports nothing when a node is left. -/
theorem Builtin.leave_reaction (b : Builtin) (v : Visit) (s : Scene) (state : b.rule.State) :
    (b.rule.leave v s state).2 = .none := by
  exact b.rule_cases (P := fun r => ∀ state : r.State, (r.leave v s state).2 = .none)
    (fun _ _ _ _ _ => rfl) (fun _ => rfl) state

/-! ### Scripted rules -/

namespace Script

/-- Whether `handlers` run or not does not depend on the number of reports. -/
def Uncounting (handlers : List Handler) : Prop :=
  ∀ h ∈ handlers, ∀ n, Condition.reports n ∉ h.conditions

theorem Handler.run_eq {h : Handler} (hc : ∀ n, Condition.reports n ∉ h.conditions) (v : Visit)
    (handler : String) (before before' : Nat) (p : Progress) :
    h.run v handler before p = h.run v handler before' p := by
  have hholds : ∀ c ∈ h.conditions, ∀ m n, c.holds v handler m = c.holds v handler n := by
    intro c hmem m n
    cases c with
    | reports k => exact absurd hmem (hc k)
    | _ => rfl
  have hall : h.conditions.all (Condition.holds v handler (before + p.reports.size)) =
      h.conditions.all (Condition.holds v handler (before' + p.reports.size)) := by
    rw [Bool.eq_iff_iff, List.all_eq_true, List.all_eq_true]
    exact forall₂_congr fun c hmem => by rw [hholds c hmem]
  rw [Handler.run, Handler.run, hall]

theorem foldl_run_eq {handlers : List Handler} (h : Uncounting handlers) (v : Visit)
    (handler : String) (before before' : Nat) (p : Progress) :
    handlers.foldl (Handler.run v handler before) p =
      handlers.foldl (Handler.run v handler before') p := by
  refine List.foldl_ext _ _ p fun p a ha => ?_
  exact Handler.run_eq (h a ha) v handler before before' p

theorem respond_congr (script : Script) {handlers : List Handler} (h : Uncounting handlers)
    (event handler : String)
    (v : Visit) (s s' : Scene) {a b : State} (hab : a.counter = b.counter) :
    (script.respond event handler handlers v s a).1.counter =
        (script.respond event handler handlers v s' b).1.counter ∧
      (script.respond event handler handlers v s a).2 =
        (script.respond event handler handlers v s' b).2 := by
  simp only [respond, hab, foldl_run_eq h v handler s.context.size s'.context.size, and_self]

theorem oblivious_rule {script : Script} (henter : Uncounting script.enter)
    (hleave : Uncounting script.leave) :
    script.rule.Oblivious := by
  -- a trace may tell scenes apart, but only the counter has a say in the reactions
  refine Rule.oblivious_of_rel (S := fun a b : State => a.counter = b.counter) rfl ?_
  intro e s s' a b hab
  cases e with
  | enter v => exact script.respond_congr henter "enter" v.node.kind.handler v s s' hab
  | leave v => exact script.respond_congr hleave "leave" "leave" v s s' hab

end Script

namespace Rule

open Attendee Branching

/-! ### Passes of oblivious rules -/

def asks (events : List (Event Visit)) (v : Visit) (r : Rule) : Bool :=
  (r.enter v .blank (r.follow events).state).2.skip

theorem skip_reactionAt_follow (r : Rule) (events : List (Event Visit)) (v : Visit) :
    ((r.follow (events ++ [.enter v])).reactionAt events.length).skip = r.asks events v := by
  have hlength : (r.follow events).log.length = events.length := by
    rw [← List.length_map Call.event]
    exact congrArg List.length (r.events_follow events)
  have hlast : r.follow (events ++ [.enter v]) =
      ((r.follow events).answer (.enter v) .blank).1 := by
    rw [follow, List.map_append]
    exact r.attend_concat _ _ _
  rw [hlast, ← hlength, reactionAt_answer]
  rfl

end Rule

namespace Attendee

open Branching

variable {rules : List Rule} {p : List Attendee × Context} {heard : Heard Visit}

theorem Aligned.log_eq (h : Aligned rules p heard) (hrules : ∀ r ∈ rules, r.Oblivious)
    {x : Attendee} (hx : x ∈ p.1) :
    x.log = (x.rule.follow heard.events).log := by
  have hrule : x.rule.Oblivious := hrules x.rule (h.rules_eq ▸ List.mem_map_of_mem hx)
  obtain ⟨told, htold, hattend⟩ := h.exists_told x hx
  rw [← htold, ← hrule.log_attend, hattend]

/-- If all rules are oblivious, what they ask for at an event follows from the events before. -/
theorem Aligned.skipping_eq (h : Aligned rules p heard) (hrules : ∀ r ∈ rules, r.Oblivious)
    (v : Visit) :
    (callAll (answer (.enter v)) p.1 ⟨p.2, false⟩).2.skipping =
      rules.any (Rule.asks heard.events v) := by
  have hnext := h.enter v
  have hskip : ∀ y ∈ (callAll (answer (.enter v)) p.1 ⟨p.2, false⟩).1,
      (y.reactionAt heard.events.length).skip = y.rule.asks heard.events v := by
    intro y hy
    have hlog := hnext.log_eq hrules hy
    rw [← Rule.skip_reactionAt_follow, reactionAt, hlog]
    rfl
  rw [scene_callAll h.length_log, Bool.false_or, ← hnext.rules_eq, List.any_map, Bool.eq_iff_iff,
    List.any_eq_true, List.any_eq_true]
  exact exists_congr fun y => and_congr_right fun hy => by rw [hskip y hy]; rfl

end Attendee

namespace Rule

open Attendee Branching

/-- Two passes of oblivious rules are told the same if at all times the same is asked for. -/
theorem heard_eq {rules rules' : List Rule} (hrules : ∀ r ∈ rules, r.Oblivious)
    (hrules' : ∀ r ∈ rules', r.Oblivious)
    (hasks : ∀ events v, rules.any (asks events v) = rules'.any (asks events v)) (root : Node) :
    heard rules root = heard rules' root := by
  refine (visit_rel (hearing attending) (hearing attending)
    (R := fun s t : (List Attendee × Context) × Heard Visit =>
      s.2 = t.2 ∧ Aligned rules s.1 s.2 ∧ Aligned rules' t.1 t.2) ?_ ?_
    (Visit.ofRoot root) (arrivals rules, ⟨[], []⟩) (arrivals rules', ⟨[], []⟩)
    ⟨rfl, .arrivals rules, .arrivals rules'⟩).1
  · rintro v ⟨p, told⟩ ⟨p', _⟩ ⟨rfl, h, h'⟩
    have hskipping : (callAll (Attendee.answer (.enter v)) p.1 ⟨p.2, false⟩).2.skipping =
        (callAll (Attendee.answer (.enter v)) p'.1 ⟨p'.2, false⟩).2.skipping := by
      rw [h.skipping_eq hrules, h'.skipping_eq hrules', hasks]
    refine ⟨⟨?_, h.enter v, h'.enter v⟩, ?_⟩
    · simp only [hearing, attending, hskipping]
    · simp only [hearing, attending, hskipping]
  · rintro v ⟨p, told⟩ ⟨p', _⟩ ⟨rfl, h, h'⟩
    exact ⟨rfl, h.leave v, h'.leave v⟩

theorem map_attendance_of_log {rules : List Rule} {root : Node}
    (h : ∀ x ∈ attendance rules root, x.log = (x.rule.follow (heard rules root).events).log) :
    ((attendance rules root).map fun x => (x.rule, x.log)) =
      rules.map fun r => (r, (r.follow (heard rules root).events).log) := by
  have hlogs : ((attendance rules root).map fun x => (x.rule, x.log)) =
      (attendance rules root).map fun x =>
        (x.rule, (x.rule.follow (heard rules root).events).log) :=
    List.map_congr_left fun x hx => by rw [h x hx]
  have hmap := congrArg (List.map fun r => (r, (r.follow (heard rules root).events).log))
    (aligned_attendance rules root).rules_eq
  rw [hlogs, ← hmap, List.map_map]
  rfl

theorem map_log_attendance_of_log {rules : List Rule} {root : Node}
    (h : ∀ x ∈ attendance rules root, x.log = (x.rule.follow (heard rules root).events).log) :
    (attendance rules root).map Attendee.log =
      rules.map fun r => (r.follow (heard rules root).events).log := by
  have hlogs := congrArg (List.map Prod.snd) (map_attendance_of_log h)
  rwa [List.map_map, List.map_map] at hlogs

/-- The logs of a pass of oblivious rules follow from the events. -/
theorem map_attendance {rules : List Rule} (hrules : ∀ r ∈ rules, r.Oblivious) (root : Node) :
    ((attendance rules root).map fun x => (x.rule, x.log)) =
      rules.map fun r => (r, (r.follow (heard rules root).events).log) :=
  map_attendance_of_log fun _ hx => (aligned_attendance rules root).log_eq hrules hx

/-! ### Asking to skip when a node is left -/

/-- The rule `r`, which never asks to skip when a node is left.  Only rules behind it could notice
the difference. -/
def muted (r : Rule) : Rule where
  name := r.name
  description := r.description
  State := r.State
  create := r.create
  enter := r.enter
  leave v s state :=
    let (next, reaction) := r.leave v s state
    (next, ⟨reaction.reports, false⟩)
  summary := r.summary

end Rule

def Call.muted : Call → Call
  | ⟨.enter v, reaction⟩ => ⟨.enter v, reaction⟩
  | ⟨.leave v, reaction⟩ => ⟨.leave v, ⟨reaction.reports, false⟩⟩

namespace Rule

theorem heed_muted (r : Rule) (told : List (Event Visit × Scene)) (state : r.State) :
    r.muted.heed told state = ((r.heed told state).1, (r.heed told state).2.map Call.muted) := by
  induction told generalizing state with
  | nil => rfl
  | cons t told ih =>
      obtain ⟨e, s⟩ := t
      cases e with
      | enter v => exact congrArg (fun p : r.State × List Call => (p.1, _ :: p.2)) (ih _)
      | leave v => exact congrArg (fun p : r.State × List Call => (p.1, _ :: p.2)) (ih _)

theorem log_muted (r : Rule) (told : List (Event Visit × Scene)) :
    (r.muted.attend told).log = (r.attend told).log.map Call.muted :=
  congrArg Prod.snd (r.heed_muted told (r.create .empty))

theorem Oblivious.muted {r : Rule} (h : r.Oblivious) : r.muted.Oblivious := by
  intro told told' htold
  rw [log_muted, log_muted, h told told' htold]

theorem asks_muted (r : Rule) (events : List (Event Visit)) (v : Visit) :
    r.muted.asks events v = r.asks events v := by
  have hstate :=
    congrArg Prod.fst (r.heed_muted (events.map fun e => (e, .blank)) (r.create .empty))
  exact congrArg (fun state : r.State => (r.enter v .blank state).2.skip) hstate

end Rule
end Arborist
