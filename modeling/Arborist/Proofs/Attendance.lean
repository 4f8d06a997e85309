import Arborist.Proofs.Dispatch
import Arborist.Proofs.Events
import Mathlib.Tactic.Tauto

/-!
# What every rule is told

A rule that keeps a log of its calls reacts as it would without one, so that the logs at the end of
a pass tell what every rule was told during it and how it reacted.  An `Attendee` is a rule with the
state and the log it has come to, and `attended_attendance` says that the attendees of a pass are
the rules at work in the pass of the rules that keep logs.

All of them are told the same events (`events_eq_seen`): those of the whole walk, but for what
happens below the nodes at which one of them asked to skip.  The reports of the pass are those of
the attendees, event by event and within an event in the order of the rules
(`reports_eq_inEventOrder`).
-/

namespace Arborist

/-- What a rule was told at one event, and how it reacted.  The log of an `Attendee` is a list of
calls, the first one in front. -/
structure Call where
  event : Event Visit
  reaction : Reaction

def Call.skip? : Call → Option Visit
  | ⟨.enter v, reaction⟩ => if reaction.skip then some v else none
  | ⟨.leave _, _⟩ => none

namespace Rule

def answer (r : Rule) : Event Visit → Scene → r.State → r.State × Reaction
  | .enter v => r.enter v
  | .leave v => r.leave v

/-- The rule `r` with a log of its calls in its state.  It reacts as `r` does, so that a pass of
logged rules is a pass of the rules (`Attended.run_logged`). -/
def logged (r : Rule) : Rule where
  name := r.name
  description := r.description
  State := r.State × List Call
  create c := (r.create c, [])
  enter v s state :=
    let (next, reaction) := r.enter v s state.1
    ((next, state.2 ++ [⟨.enter v, reaction⟩]), reaction)
  leave v s state :=
    let (next, reaction) := r.leave v s state.1
    ((next, state.2 ++ [⟨.leave v, reaction⟩]), reaction)
  summary state := r.summary state.1

def heed (r : Rule) : List (Event Visit × Scene) → r.State → r.State × List Call
  | [], state => (state, [])
  | (e, s) :: told, state =>
    let (next, reaction) := r.answer e s state
    let (last, log) := r.heed told next
    (last, ⟨e, reaction⟩ :: log)

theorem heed_append (r : Rule) (told told' : List (Event Visit × Scene)) (state : r.State) :
    r.heed (told ++ told') state =
      ((r.heed told' (r.heed told state).1).1,
        (r.heed told state).2 ++ (r.heed told' (r.heed told state).1).2) := by
  induction told generalizing state with
  | nil => rfl
  | cons t told ih => simp only [List.cons_append, heed, ih]

theorem map_event_heed (r : Rule) (told : List (Event Visit × Scene)) (state : r.State) :
    (r.heed told state).2.map Call.event = told.map Prod.fst := by
  induction told generalizing state with
  | nil => rfl
  | cons t told ih => simp only [heed, List.map_cons, ih]

end Rule

/-- A rule that takes part in a pass, in the `state` it has come to and with the `log` of what it
was told. -/
structure Attendee : Type 1 where
  rule : Rule
  state : rule.State
  log : List Call

namespace Attendee

def running (x : Attendee) : Running := ⟨x.rule, x.state⟩

def logged (x : Attendee) : Running := ⟨x.rule.logged, (x.state, x.log)⟩

def events (x : Attendee) : List (Event Visit) := x.log.map Call.event

/-- The nodes that the attendee was told of, by their ordinals in the tree. -/
def entered (x : Attendee) : List Nat :=
  x.events.filterMap fun
    | .enter v => some v.ordinal
    | .leave _ => none

def reports (x : Attendee) : List Report := x.log.flatMap fun call => call.reaction.reports

def reactionAt (x : Attendee) (k : Nat) : Reaction := (x.log[k]?.map Call.reaction).getD .none

def answer (e : Event Visit) (x : Attendee) (s : Scene) : Attendee × Scene :=
  let (next, reaction) := x.rule.answer e s x.state
  (⟨x.rule, next, x.log ++ [⟨e, reaction⟩]⟩, s.after reaction)

def skips (xs : List Attendee) : List Visit := xs.flatMap fun x => x.log.filterMap Call.skip?

/-- The nodes below those in `skips`, by their ordinals: what nobody gets to see on account of the
attendees. -/
def unseen (xs : List Attendee) : List Nat :=
  (skips xs).flatMap fun w => (Branching.below w).map Visit.ordinal

/-- The events of the whole walk of `root`, but for those at nodes that are `unseen`. -/
def seen (root : Node) (xs : List Attendee) : List (Event Visit) :=
  ((Visit.ofRoot root).events fun _ => .descend).filter fun e =>
    !(unseen xs).contains e.value.ordinal

/-- All reports of the attendees, those at earlier events first and within an event in the order of
the attendees.  `count` is the number of events. -/
def inEventOrder (count : Nat) (xs : List Attendee) : List Report :=
  (List.range count).flatMap fun k => xs.flatMap fun x => (x.reactionAt k).reports

end Attendee

/-- The attendees of a pass of `rules` over a tree: what is at work in the end if the rules keep
logs (`run_logged`), and without the logs if they keep none (`run_eq`). -/
structure Rule.Attended (rules : List Rule) (root : Node) (xs : List Attendee) : Prop where
  rules_eq : xs.map Attendee.rule = rules
  run_eq : Rule.run rules root .empty = ⟨xs.map Attendee.running, Rule.reportInto rules root .empty⟩
  run_logged : Rule.run (rules.map Rule.logged) root .empty =
    ⟨xs.map Attendee.logged, Rule.reportInto rules root .empty⟩

namespace Attendee

/-! ### One event -/

theorem reactionAt_answer_of_lt {x : Attendee} {k : Nat} (h : k < x.log.length) (e : Event Visit)
    (s : Scene) :
    (x.answer e s).1.reactionAt k = x.reactionAt k := by
  simp only [answer, reactionAt, List.getElem?_append_left h]

theorem reactionAt_answer (x : Attendee) (e : Event Visit) (s : Scene) :
    (x.answer e s).1.reactionAt x.log.length = (x.rule.answer e s x.state).2 := by
  simp [answer, reactionAt]

theorem mem_skip_answer {x : Attendee} {e : Event Visit} {s : Scene} {w : Visit} :
    w ∈ (x.answer e s).1.log.filterMap Call.skip? ↔
      w ∈ x.log.filterMap Call.skip? ∨ e = .enter w ∧
        (x.rule.answer e s x.state).2.skip = true := by
  cases e with
  | enter v => simp [answer, Call.skip?, and_comm]
  | leave v => simp [answer, Call.skip?]

theorem skips_cons (x : Attendee) (xs : List Attendee) :
    skips (x :: xs) = x.log.filterMap Call.skip? ++ skips xs :=
  List.flatMap_cons

variable {e : Event Visit} {xs : List Attendee} {s : Scene} {n : Nat}

theorem map_rule_callAll : (callAll (answer e) xs s).1.map rule = xs.map rule :=
  map_callAll (fun _ _ => rfl) xs s

theorem exists_of_mem_callAll {y : Attendee} (h : y ∈ (callAll (answer e) xs s).1) :
    ∃ x ∈ xs, ∃ t, (x.answer e t).1 = y := by
  induction xs generalizing s with
  | nil => cases h
  | cons x xs ih =>
      rcases List.mem_cons.1 h with rfl | h
      · exact ⟨x, List.mem_cons_self, s, rfl⟩
      · obtain ⟨z, hz, t, hy⟩ := ih h
        exact ⟨z, List.mem_cons_of_mem x hz, t, hy⟩

theorem flatMap_reports_callAll_of_lt (hlog : ∀ x ∈ xs, x.log.length = n) {k : Nat} (h : k < n) :
    ((callAll (answer e) xs s).1.flatMap fun y => (y.reactionAt k).reports) =
      xs.flatMap fun x => (x.reactionAt k).reports := by
  induction xs generalizing s with
  | nil => rfl
  | cons x xs ih =>
      have hx : k < x.log.length := by rwa [hlog x List.mem_cons_self]
      rw [callAll_cons, List.flatMap_cons, List.flatMap_cons, reactionAt_answer_of_lt hx,
        ih fun z hz => hlog z (List.mem_cons_of_mem x hz)]

/-- After an event the scene holds the reactions to it, which are last in the logs. -/
theorem scene_callAll (hlog : ∀ x ∈ xs, x.log.length = n) :
    (callAll (answer e) xs s).2 =
      ⟨s.context.add ((callAll (answer e) xs s).1.flatMap fun y => (y.reactionAt n).reports),
        s.skipping || (callAll (answer e) xs s).1.any fun y => (y.reactionAt n).skip⟩ := by
  induction xs generalizing s with
  | nil =>
      show s = ⟨s.context.add [], s.skipping || false⟩
      rw [Context.add_nil, Bool.or_false]
  | cons x xs ih =>
      have hx := reactionAt_answer x e s
      rw [hlog x List.mem_cons_self] at hx
      rw [callAll_cons, List.flatMap_cons, List.any_cons, hx, ← Context.add_add, ← Bool.or_assoc]
      exact ih fun z hz => hlog z (List.mem_cons_of_mem x hz)

theorem mem_skips_callAll (hlog : ∀ x ∈ xs, x.log.length = n) {w : Visit} :
    w ∈ skips (callAll (answer e) xs s).1 ↔
      w ∈ skips xs ∨ e = .enter w ∧
        ((callAll (answer e) xs s).1.any fun y => (y.reactionAt n).skip) = true := by
  induction xs generalizing s with
  | nil => simp [callAll, skips]
  | cons x xs ih =>
      have hx := reactionAt_answer x e s
      rw [hlog x List.mem_cons_self] at hx
      rw [callAll_cons, skips_cons, skips_cons, List.mem_append, List.mem_append, mem_skip_answer,
        ih fun z hz => hlog z (List.mem_cons_of_mem x hz), List.any_cons, hx, Bool.or_eq_true]
      tauto

/-! ### A pass -/

def attending : Listener Visit (List Attendee × Context) where
  enter v p :=
    let (xs, s) := callAll (answer (.enter v)) p.1 ⟨p.2, false⟩
    ((xs, s.context), if s.skipping then .skip else .descend)
  leave v p :=
    let (xs, s) := callAll (answer (.leave v)) p.1 ⟨p.2, false⟩
    (xs, s.context)

end Attendee

namespace Rule

/-- The rule `r` after it was told of events, each in a scene of its own, having been created as for
a pass. -/
def attend (r : Rule) (told : List (Event Visit × Scene)) : Attendee :=
  ⟨r, (r.heed told (r.create .empty)).1, (r.heed told (r.create .empty)).2⟩

theorem events_attend (r : Rule) (told : List (Event Visit × Scene)) :
    (r.attend told).events = told.map Prod.fst :=
  map_event_heed r told _

theorem attend_concat (r : Rule) (told : List (Event Visit × Scene)) (e : Event Visit) (s : Scene) :
    r.attend (told ++ [(e, s)]) = ((r.attend told).answer e s).1 := by
  simp only [attend, heed_append]
  rfl

def arrivals (rules : List Rule) : List Attendee × Context :=
  (rules.map fun r => r.attend [], .empty)

def attendance (rules : List Rule) (root : Node) : List Attendee :=
  (Branching.visit Attendee.attending (Visit.ofRoot root) (arrivals rules)).1

/-- What all attendees of a pass hear: the same `Branching.hearing` for everyone. -/
def heard (rules : List Rule) (root : Node) : Branching.Heard Visit :=
  (Branching.visit (Branching.hearing Attendee.attending) (Visit.ofRoot root)
    (arrivals rules, ⟨[], []⟩)).2

/-- A pass is the one of the attendees, whatever else they keep. -/
theorem run_eq_attending (f : Attendee → Running)
    (henter : ∀ x v s, (f x).enter v s = (f (x.answer (.enter v) s).1, (x.answer (.enter v) s).2))
    (hleave : ∀ x v s, (f x).leave v s = (f (x.answer (.leave v) s).1, (x.answer (.leave v) s).2))
    (rules : List Rule) {rules' : List Rule} (root : Node)
    (h : start rules' .empty = ⟨(arrivals rules).1.map f, .empty⟩) :
    run rules' root .empty =
      ⟨(attendance rules root).map f,
        (Branching.visit Attendee.attending (Visit.ofRoot root) (arrivals rules)).2⟩ := by
  rw [run, Node.walk, Visit.walk, Branching.traverse_eq_visit, h]
  refine Branching.visit_map Attendee.attending dispatching (fun p => ⟨p.1.map f, p.2⟩) ?_ ?_
    (Visit.ofRoot root) (arrivals rules)
  · intro v p
    simp only [dispatching, Attendee.attending]
    rw [callAll_map (Attendee.answer (.enter v)) _ f fun x s => henter x v s]
  · intro v p
    simp only [dispatching, Attendee.attending]
    rw [callAll_map (Attendee.answer (.leave v)) _ f fun x s => hleave x v s]

theorem run_eq_attendance (rules : List Rule) (root : Node) :
    run rules root .empty =
      ⟨(attendance rules root).map Attendee.running,
        (Branching.visit Attendee.attending (Visit.ofRoot root) (arrivals rules)).2⟩ := by
  refine run_eq_attending Attendee.running (fun _ _ _ => rfl) (fun _ _ _ => rfl) rules root ?_
  simp only [start, arrivals, List.map_map]
  rfl

theorem context_attending (rules : List Rule) (root : Node) :
    (Branching.visit Attendee.attending (Visit.ofRoot root) (arrivals rules)).2 =
      reportInto rules root .empty := by
  rw [reportInto, run_eq_attendance]

theorem run_logged_eq_attendance (rules : List Rule) (root : Node) :
    run (rules.map logged) root .empty =
      ⟨(attendance rules root).map Attendee.logged, reportInto rules root .empty⟩ := by
  rw [← context_attending]
  refine run_eq_attending Attendee.logged (fun _ _ _ => rfl) (fun _ _ _ => rfl) rules root ?_
  simp only [start, arrivals, List.map_map]
  rfl

end Rule

/-! ### What attendees have in common -/

namespace Attendee

open Branching (Heard)

/-- At any time during a pass the attendees have been told the same events, those in `heard`, and
together they have made the reports.  This is the invariant that one event keeps (`Aligned.enter`,
`Aligned.leave`). -/
structure Aligned (rules : List Rule) (p : List Attendee × Context) (heard : Heard Visit) :
    Prop where
  rules_eq : p.1.map rule = rules
  exists_told : ∀ x ∈ p.1, ∃ told, told.map Prod.fst = heard.events ∧ x.rule.attend told = x
  reports_eq : p.2.reports.toList = inEventOrder heard.events.length p.1
  mem_skipped : ∀ w, w ∈ heard.skipped ↔ w ∈ skips p.1

namespace Aligned

variable {rules : List Rule} {p : List Attendee × Context} {heard : Heard Visit}

theorem arrivals (rules : List Rule) : Aligned rules (Rule.arrivals rules) ⟨[], []⟩ where
  rules_eq := by
    simp only [Rule.arrivals, List.map_map]
    exact List.map_id rules
  exists_told x hx := by
    obtain ⟨r, -, rfl⟩ := List.mem_map.1 hx
    exact ⟨[], rfl, rfl⟩
  reports_eq := rfl
  mem_skipped w := by simp [skips, Rule.arrivals, Rule.attend, Rule.heed]

theorem events_eq (h : Aligned rules p heard) {x : Attendee} (hx : x ∈ p.1) :
    x.events = heard.events := by
  obtain ⟨told, htold, hattend⟩ := h.exists_told x hx
  rw [← hattend, Rule.events_attend, htold]

theorem length_log (h : Aligned rules p heard) (x : Attendee) (hx : x ∈ p.1) :
    x.log.length = heard.events.length := by
  rw [← h.events_eq hx, events, List.length_map]

/-- One event keeps the attendees aligned. -/
theorem step (h : Aligned rules p heard) (e : Event Visit) {skipped : List Visit}
    (hskipped : ∀ w, w ∈ skipped ↔
      w ∈ heard.skipped ∨ e = .enter w ∧ (callAll (answer e) p.1 ⟨p.2, false⟩).2.skipping = true) :
    Aligned rules ((callAll (answer e) p.1 ⟨p.2, false⟩).1,
      (callAll (answer e) p.1 ⟨p.2, false⟩).2.context)
      ⟨heard.events ++ [e], skipped⟩ where
  rules_eq := map_rule_callAll.trans h.rules_eq
  exists_told y hy := by
    obtain ⟨x, hx, s, rfl⟩ := exists_of_mem_callAll hy
    obtain ⟨told, htold, hattend⟩ := h.exists_told x hx
    refine ⟨told ++ [(e, s)], by rw [List.map_append, htold]; rfl, ?_⟩
    show x.rule.attend (told ++ [(e, s)]) = _
    rw [Rule.attend_concat, hattend]
  reports_eq := by
    have hbefore : inEventOrder heard.events.length (callAll (answer e) p.1 ⟨p.2, false⟩).1 =
        inEventOrder heard.events.length p.1 :=
      List.flatMap_congr fun k hk => flatMap_reports_callAll_of_lt h.length_log
        (List.mem_range.1 hk)
    rw [scene_callAll h.length_log, Context.toList_reports_add, h.reports_eq, ← hbefore]
    simp only [inEventOrder, List.length_append, List.length_singleton, List.range_succ,
      List.flatMap_append, List.flatMap_singleton]
  mem_skipped w := by
    rw [hskipped, mem_skips_callAll h.length_log, h.mem_skipped, scene_callAll h.length_log,
      Bool.false_or]

theorem enter (h : Aligned rules p heard) (v : Visit) :
    Aligned rules ((Branching.hearing attending).enter v (p, heard)).1.1
      ((Branching.hearing attending).enter v (p, heard)).1.2 := by
  refine h.step (.enter v) fun w => ?_
  cases hskipping : (callAll (answer (.enter v)) p.1 ⟨p.2, false⟩).2.skipping with
  | false => simp
  | true => simp [eq_comm]

theorem leave (h : Aligned rules p heard) (v : Visit) :
    Aligned rules ((Branching.hearing attending).leave v (p, heard)).1
      ((Branching.hearing attending).leave v (p, heard)).2 := by
  refine h.step (.leave v) fun w => ?_
  simp

end Aligned

/-- What is done with the parts of the node `w` on account of what the attendees ask for. -/
def verdict (xs : List Attendee) (w : Visit) : Control :=
  if ((skips xs).map Visit.ordinal).contains w.ordinal then .skip else .descend

end Attendee

namespace Rule

open Attendee Branching

variable (rules : List Rule) (root : Node)

theorem aligned_attendance :
    Aligned rules (attendance rules root, reportInto rules root .empty) (heard rules root) := by
  obtain ⟨events, skipped, -, hvisit⟩ :=
    exists_hears_visit attending (Visit.ofRoot root) (arrivals rules) ⟨[], []⟩
  have haligned : Aligned rules (visit attending (Visit.ofRoot root) (arrivals rules))
      (heard rules root) := by
    have h := visit_inv (l := hearing attending)
      (I := fun s : (List Attendee × Context) × Heard Visit => Aligned rules s.1 s.2)
      (fun v _ h => h.enter v) (fun v _ h => h.leave v) (Visit.ofRoot root)
      (arrivals rules, ⟨[], []⟩) (.arrivals rules)
    rw [heard]
    rw [hvisit] at h ⊢
    exact h
  rw [← context_attending]
  exact haligned

theorem hears_heard : Hears [Visit.ofRoot root] (heard rules root).events
    (heard rules root).skipped := by
  obtain ⟨events, skipped, hhears, hvisit⟩ :=
    exists_hears_visit attending (Visit.ofRoot root) (arrivals rules) ⟨[], []⟩
  rw [heard, hvisit]
  exact hhears

theorem attended_attendance : Attended rules root (attendance rules root) where
  rules_eq := (aligned_attendance rules root).rules_eq
  run_eq := by rw [run_eq_attendance, context_attending]
  run_logged := run_logged_eq_attendance rules root

theorem mem_nodes_of_mem_skips {w : Visit} (h : w ∈ skips (attendance rules root)) :
    w ∈ nodes (Visit.ofRoot root) := by
  have hmem := (hears_heard rules root).mem_nodes w
      (((aligned_attendance rules root).mem_skipped w).2 h)
  simpa using hmem

/-- Nodes of the tree are told apart by their ordinals. -/
theorem mem_map_ordinal_iff {ws : List Visit}
    (hws : ∀ w ∈ ws, w ∈ nodes (Visit.ofRoot root)) {x : Visit}
    (hx : x ∈ nodes (Visit.ofRoot root)) : x.ordinal ∈ ws.map Visit.ordinal ↔ x ∈ ws := by
  constructor
  · intro h
    obtain ⟨w, hw, hordinal⟩ := List.mem_map.1 h
    have hmem := hws w hw
    rw [← Visit.preorder_ofRoot] at hmem hx
    rwa [← Visit.eq_of_ordinal_eq hmem hx hordinal]
  · exact List.mem_map_of_mem

theorem verdict_eq_skip_iff {w : Visit} (hw : w ∈ nodes (Visit.ofRoot root)) :
    verdict (attendance rules root) w = .skip ↔ w ∈ skips (attendance rules root) := by
  rw [← mem_map_ordinal_iff root (fun _ h => mem_nodes_of_mem_skips rules root h) hw, verdict]
  split <;> simp_all

/-- What the attendees hear is settled by what they ask for. -/
theorem events_heard : (heard rules root).events = trace (verdict (attendance rules root))
    (Visit.ofRoot root) := by
  have hevents := (hears_heard rules root).events_eq (by simpa using Visit.nodup_nodes_ofRoot root)
    (verdict (attendance rules root)) fun w hw => by
      rw [verdict_eq_skip_iff rules root (by simpa using hw),
        (aligned_attendance rules root).mem_skipped]
  simpa using hevents

theorem mem_unseen_iff {x : Visit} (hx : x ∈ nodes (Visit.ofRoot root)) :
    x.ordinal ∈ unseen (attendance rules root) ↔
      ∃ w ∈ nodes (Visit.ofRoot root), verdict (attendance rules root) w = .skip ∧ x ∈ below w := by
  have hbelow : ∀ w ∈ nodes (Visit.ofRoot root), x.ordinal ∈ (below w).map Visit.ordinal ↔
      x ∈ below w := fun w hw =>
    mem_map_ordinal_iff root (fun _ hy => mem_nodes_trans hw (mem_nodes_of_mem_below hy)) hx
  rw [unseen, List.mem_flatMap]
  constructor
  · rintro ⟨w, hw, hmem⟩
    have hnode := mem_nodes_of_mem_skips rules root hw
    exact ⟨w, hnode, (verdict_eq_skip_iff rules root hnode).2 hw, (hbelow w hnode).1 hmem⟩
  · rintro ⟨w, hnode, hverdict, hmem⟩
    exact ⟨w, (verdict_eq_skip_iff rules root hnode).1 hverdict, (hbelow w hnode).2 hmem⟩

theorem seen_eq_trace :
    seen root (attendance rules root) = trace (verdict (attendance rules root))
      (Visit.ofRoot root) := by
  rw [seen, Visit.events_ofRoot]
  refine (trace_eq_filter (Visit.nodup_nodes_ofRoot root)
    (fun x => !(unseen (attendance rules root)).contains x.ordinal) fun x hx => ?_).symm
  rw [Bool.not_eq_false', List.contains_iff_mem, mem_unseen_iff rules root hx]

theorem events_eq_seen {x : Attendee} (hx : x ∈ attendance rules root) :
    x.events = seen root (attendance rules root) := by
  rw [seen_eq_trace, ← events_heard, (aligned_attendance rules root).events_eq hx]

/-- A node of the tree is entered unless it is unseen. -/
theorem mem_entered_iff {x : Attendee} (hx : x ∈ attendance rules root) {v : Visit}
    (hv : v ∈ nodes (Visit.ofRoot root)) :
    v.ordinal ∈ x.entered ↔ v.ordinal ∉ unseen (attendance rules root) := by
  rw [Attendee.entered, events_eq_seen rules root hx, seen, Visit.events_ofRoot]
  constructor
  · intro h
    obtain ⟨e, he, hordinal⟩ := List.mem_filterMap.1 h
    have hkept := (List.mem_filter.1 he).2
    cases e with
    | enter w =>
        rw [← Option.some.inj hordinal]
        simpa [Event.value] using hkept
    | leave w => cases hordinal
  · intro h
    refine List.mem_filterMap.2 ⟨.enter v, List.mem_filter.2 ⟨(mem_trace_descend hv).1, ?_⟩, rfl⟩
    simpa [Event.value] using h

theorem reports_eq_inEventOrder :
    (reports rules root).toList = inEventOrder (seen root (attendance rules root)).length
      (attendance rules root) := by
  rw [seen_eq_trace, ← events_heard]
  exact (aligned_attendance rules root).reports_eq

end Rule
end Arborist
