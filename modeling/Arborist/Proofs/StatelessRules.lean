import Arborist.Config.Selection
import Arborist.Proofs.DecodeErrors
import Arborist.Proofs.Dispatch
import Arborist.Proofs.Lookup

/-!
# What the rules without state report

A rule without state looks at one node at a time, so its reports can be read off the JSON value that
the tree was decoded from.  `Builtin.Flags` says what each of the built-in ones looks for, in terms
of the members of a value.  A run goes through the positions of the value and, at each of them,
through the rules, and makes a report wherever a rule flags the value.

There are two halves to this.  `toList_reports_perNode` takes the walk apart and is about any rules
without state.  `inspect_eq_some_iff` takes decoding apart and is about a single node.
-/

namespace Arborist

/-! ### Rules without state -/

namespace Rule

section PerNode

variable {ι : Type} (name description : ι → String) (inspect : ι → Visit → Option Report)

def working (i : ι) : Running := ⟨perNode (name i) (description i) (inspect i), ()⟩

theorem enter_working (i : ι) (v : Visit) (s : Scene) :
    (working name description inspect i).enter v s =
      (working name description inspect i, ⟨s.context.add (inspect i v).toList, s.skipping⟩) := by
  have hafter : s.after ⟨(inspect i v).toList, false⟩ =
      ⟨s.context.add (inspect i v).toList, s.skipping⟩ := by
    rw [Scene.after, Bool.or_false]
  exact congrArg (Prod.mk _) hafter

theorem leave_working (i : ι) (v : Visit) (s : Scene) :
    (working name description inspect i).leave v s = (working name description inspect i, s) := by
  have hafter : s.after .none = s := by
    rw [Scene.after, Reaction.none, Context.add_nil, Bool.or_false]
  exact congrArg (Prod.mk _) hafter

theorem callAll_enter_working (is : List ι) (v : Visit) (s : Scene) :
    callAll (fun r s => r.enter v s) (is.map (working name description inspect)) s =
      (is.map (working name description inspect),
        ⟨s.context.add (is.filterMap fun i => inspect i v), s.skipping⟩) := by
  induction is generalizing s with
  | nil =>
      rw [List.filterMap_nil, Context.add_nil]
      rfl
  | cons i is ih =>
      rw [List.map_cons, callAll_cons, enter_working, ih, Context.add_add, List.filterMap_cons]
      cases inspect i v <;> rfl

theorem callAll_leave_working (is : List ι) (v : Visit) (s : Scene) :
    callAll (fun r s => r.leave v s) (is.map (working name description inspect)) s =
      (is.map (working name description inspect), s) := by
  induction is generalizing s with
  | nil => rfl
  | cons i is ih => rw [List.map_cons, callAll_cons, leave_working, ih]

/-- Entering a node, rules without state add their reports on it and skip nothing. -/
theorem enter_dispatching_working (is : List ι) (v : Visit) (c : Context) :
    dispatching.enter v ⟨is.map (working name description inspect), c⟩ =
      (⟨is.map (working name description inspect), c.add (is.filterMap fun i => inspect i v)⟩,
        .descend) := by
  simp only [dispatching, callAll_enter_working]
  rfl

theorem leave_dispatching_working (is : List ι) (v : Visit) (c : Context) :
    dispatching.leave v ⟨is.map (working name description inspect), c⟩ =
      ⟨is.map (working name description inspect), c⟩ := by
  simp only [dispatching, callAll_leave_working]

/-- Rules without state after entering some nodes, given the last one first.  What they have
reported is settled by these. -/
def passOver (is : List ι) (entered : List Visit) : Pass :=
  ⟨is.map (working name description inspect),
    Context.empty.add (entered.reverse.flatMap fun v => is.filterMap fun i => inspect i v)⟩

theorem visit_dispatching_passOver (is : List ι) (v : Visit) (entered : List Visit) :
    Branching.visit dispatching v (passOver name description inspect is entered) =
      passOver name description inspect is (Branching.visit entering v entered) := by
  refine Branching.visit_map entering dispatching _ (fun v entered => ?_)
    (fun v entered => ?_) v entered
  · simp only [passOver, entering, enter_dispatching_working, Context.add_add, List.reverse_cons,
      List.flatMap_append, List.flatMap_singleton]
  · exact leave_dispatching_working name description inspect is v _

/-- The reports of rules without state are those that they make on each node, in the order in which
nodes are entered and then in the order of the rules. -/
theorem toList_reports_perNode (is : List ι) (root : Node) :
    (reports (is.map fun i => perNode (name i) (description i) (inspect i)) root).toList =
      (Branching.nodes (Visit.ofRoot root)).flatMap fun v => is.filterMap fun i => inspect i v := by
  have hstart : start (is.map fun i => perNode (name i) (description i) (inspect i)) .empty =
      passOver name description inspect is [] := by
    rw [start, List.map_map]
    rfl
  rw [reports, reportInto, run, Node.walk, Visit.walk, Branching.traverse_eq_visit, hstart]
  refine (congrArg (fun p : Pass => p.context.reports.toList)
    (visit_dispatching_passOver ..)).trans ?_
  rw [Visit.visit_entering, passOver, Context.toList_reports_add, List.append_nil,
    List.reverse_reverse]
  rfl

end PerNode
end Rule

/-! ### What the built-in rules look for -/

namespace Json

def HasCallee (v : Json) (name : String) : Prop :=
  ∃ callee ∈ v.get? "callee", callee.text? "type" = some "Identifier" ∧
    callee.text? "name" = some name

instance (v : Json) (name : String) : Decidable (v.HasCallee name) :=
  inferInstanceAs (Decidable (∃ callee ∈ v.get? "callee", _))

end Json

namespace Builtin

/-- What the rule `b` flags in a value, and what it attaches to its report.  It is said of the JSON
value that a node is decoded from. -/
def Flags (b : Builtin) (v : Json) (extra : Option Json) : Prop :=
  match b with
  | .newArray => v.text? "type" = some "NewExpression" ∧ v.HasCallee "Array" ∧ extra = none
  | .debugger => v.text? "type" = some "DebuggerStatement" ∧ extra = none
  | .eval callees => v.text? "type" = some "CallExpression" ∧
      ∃ name ∈ callees, v.HasCallee name ∧ extra = some (.object [("callee", .string name)])
  | .awaitInLoop => False

def Flagged (b : Builtin) (v : Json) : Prop := ∃ extra, b.Flags v extra

instance (b : Builtin) (v : Json) : Decidable (b.Flagged v) :=
  match b with
  | .newArray =>
      decidable_of_iff (v.text? "type" = some "NewExpression" ∧ v.HasCallee "Array")
        (by simp [Flagged, Flags])
  | .debugger =>
      decidable_of_iff (v.text? "type" = some "DebuggerStatement") (by simp [Flagged, Flags])
  | .eval callees =>
      decidable_of_iff (v.text? "type" = some "CallExpression" ∧ ∃ name ∈ callees,
          v.HasCallee name) (by
      constructor
      · rintro ⟨htype, name, hmem, hcallee⟩
        exact ⟨_, htype, name, hmem, hcallee, rfl⟩
      · rintro ⟨_, htype, name, hmem, hcallee, -⟩
        exact ⟨htype, name, hmem, hcallee⟩)
  | .awaitInLoop => isFalse fun h => h.elim fun _ => id

def inspect : Builtin → Visit → Option Report
  | .newArray => Rule.NewArray.inspect
  | .debugger => Rule.Debugger.inspect
  | .eval callees => Rule.Eval.inspect callees
  | .awaitInLoop => fun _ => none

theorem rule_eq_perNode {b : Builtin} (h : b ≠ .awaitInLoop) :
    b.rule = .perNode b.name b.description b.inspect := by
  cases b with
  | awaitInLoop => exact absurd rfl h
  | _ => rfl

section Inspect

variable {v : Json} {n : Node}

/-- The callee of a value is the child that a rule finds under that name. -/
theorem hasCallee_iff (hv : v.WellFormed) (h : Node.ofJson v = .ok n) {name : String} :
    v.HasCallee name ↔ ∃ c, n.child? "callee" = some c ∧ c.kind = .identifier ∧
      c.string? "name" = some name := by
  have hcallee : "callee" ∉ Node.reservedNames := by decide
  have hname : "name" ∉ Node.reservedNames := by decide
  constructor
  · rintro ⟨w, hw, htype, htext⟩
    obtain ⟨c, hc, hdecode⟩ := Node.exists_child?_of_isNode hv h hcallee hw
      (Json.isNode_of_text? htype)
    refine ⟨c, hc, (Node.kind_eq_iff hdecode _).2 htype, ?_⟩
    rw [Node.string?_eq (hv.get? hw) hdecode hname, htext]
  · rintro ⟨c, hc, hkind, htext⟩
    obtain ⟨w, hw, hdecode⟩ := (Node.child?_eq_some_iff hv h hcallee).1 hc
    rw [Node.string?_eq (hv.get? hw) hdecode hname] at htext
    exact ⟨w, hw, (Node.kind_eq_iff hdecode _).1 hkind, htext⟩

theorem applies_iff : Rule.NewArray.applies n = true ↔ n.kind = .newExpression ∧
    ∃ c, n.child? "callee" = some c ∧ c.kind = .identifier ∧ c.string? "name" = some "Array" := by
  simp [Rule.NewArray.applies, Node.isIdentifier, Option.any_eq_true]

theorem calleeName?_eq_some_iff {name : String} :
    Rule.Eval.calleeName? n = some name ↔ n.kind = .callExpression ∧
    ∃ c, n.child? "callee" = some c ∧ c.kind = .identifier ∧ c.string? "name" = some name := by
  simp [Rule.Eval.calleeName?, Option.bind_eq_some_iff, guard]

theorem eval_inspect_eq_some_iff {callees : List String} {w : Visit} {report : Report} :
    Rule.Eval.inspect callees w = some report ↔ ∃ name, Rule.Eval.calleeName? w.node = some name ∧
      name ∈ callees ∧
      w.report Rule.Eval.name (some (.object [("callee", .string name)])) = report := by
  simp [Rule.Eval.inspect, Option.bind_eq_some_iff, guard]

/-- On the node that a value decodes to, a rule without state reports what it flags in the value. -/
theorem inspect_eq_some_iff {b : Builtin} {w : Visit} (hb : b ≠ .awaitInLoop) (hv : v.WellFormed)
    (h : Node.ofJson v = .ok w.node) {report : Report} :
    b.inspect w = some report ↔ ∃ extra, b.Flags v extra ∧ report = w.report b.name extra := by
  cases b with
  | newArray =>
      rw [inspect, Rule.NewArray.inspect, Option.ite_none_right_eq_some, applies_iff,
        ← hasCallee_iff hv h, Node.kind_eq_iff h]
      constructor
      · rintro ⟨⟨htype, hcallee⟩, hreport⟩
        exact ⟨none, ⟨htype, hcallee, rfl⟩, (Option.some.inj hreport).symm⟩
      · rintro ⟨_, ⟨htype, hcallee, rfl⟩, rfl⟩
        exact ⟨⟨htype, hcallee⟩, rfl⟩
  | debugger =>
      rw [inspect, Rule.Debugger.inspect, Option.ite_none_right_eq_some, beq_iff_eq,
        Node.kind_eq_iff h]
      constructor
      · rintro ⟨htype, hreport⟩
        exact ⟨none, ⟨htype, rfl⟩, (Option.some.inj hreport).symm⟩
      · rintro ⟨_, ⟨htype, rfl⟩, rfl⟩
        exact ⟨htype, rfl⟩
  | eval callees =>
      rw [inspect, eval_inspect_eq_some_iff]
      simp only [calleeName?_eq_some_iff, ← hasCallee_iff hv h, Node.kind_eq_iff h]
      constructor
      · rintro ⟨name, ⟨htype, hcallee⟩, hmem, rfl⟩
        exact ⟨_, ⟨htype, name, hmem, hcallee, rfl⟩, rfl⟩
      · rintro ⟨_, ⟨htype, name, hmem, hcallee, rfl⟩, rfl⟩
        exact ⟨name, ⟨htype, hcallee⟩, hmem, rfl⟩
  | awaitInLoop => exact absurd rfl hb

end Inspect

/-- The reports of rules without state on a node are on what they flag in the value that it comes
from, rule by rule. -/
theorem forall₂_inspect {bs : List Builtin} (hbs : .awaitInLoop ∉ bs) {v : Json} {w : Visit}
    (hv : v.WellFormed) (h : Node.ofJson v = .ok w.node) :
    List.Forall₂ (fun report b => ∃ extra, b.Flags v extra ∧ report = w.report b.name extra)
      (bs.filterMap fun b => b.inspect w) (bs.filter fun b => b.Flagged v) := by
  induction bs with
  | nil => exact .nil
  | cons b bs ih =>
      rw [List.mem_cons, not_or] at hbs
      have hreport : ∀ report, b.inspect w = some report ↔ ∃ extra, b.Flags v extra ∧
          report = w.report b.name extra :=
        fun _ => inspect_eq_some_iff (Ne.symm hbs.1) hv h
      rw [List.filterMap_cons]
      cases hinspect : b.inspect w with
      | none =>
          have hfree : ¬ b.Flagged v := by
            rintro ⟨extra, hextra⟩
            rw [(hreport _).2 ⟨extra, hextra, rfl⟩] at hinspect
            cases hinspect
          rw [List.filter_cons_of_neg (by simpa using hfree)]
          exact ih hbs.2
      | some report =>
          obtain ⟨extra, hextra, heq⟩ := (hreport report).1 hinspect
          rw [List.filter_cons_of_pos (by simpa using ⟨extra, hextra⟩)]
          exact .cons ⟨extra, hextra, heq⟩ (ih hbs.2)

end Builtin

/-! ### Callees by configuration -/

def Config.option? (c : Config) (rule option : String) : Option Toml :=
  (c.rule? rule).bind fun r => List.lookup option r.options

/-- Callees that come from a configuration are not empty, so the choice of the default ones is not
made twice. -/
theorem Builtin.ofName?_eval (r : RuleConfig) :
    ofName? "no-eval" r.callees =
      some (.eval (if r.strings "callees" = [] then ["eval"] else r.strings "callees")) := by
  have hname : ∀ callees : List String,
      ofName? "no-eval" callees = some (.eval (if callees.isEmpty then ["eval"] else callees)) :=
        fun _ => rfl
  rw [hname, RuleConfig.callees]
  by_cases h : r.strings "callees" = []
  · simp [h, Rule.Eval.defaultCallees]
  · simp [h]

/-- The callees by configuration are the strings of the array, or else the default. -/
theorem Config.exists_builtin?_eval (c : Config) :
    ∃ callees, c.builtin? "no-eval" = some (.eval callees) ∧
      (∀ items, c.option? "no-eval" "callees" = some (.array items) →
        items.filterMap Toml.string? ≠ [] →
        callees = items.filterMap Toml.string?) ∧
      ((∀ items, c.option? "no-eval" "callees" = some (.array items) →
        items.filterMap Toml.string? = []) →
        callees = ["eval"]) := by
  rw [Config.builtin?, Config.option?]
  cases c.rule? "no-eval" with
  | none => exact ⟨["eval"], rfl, nofun, fun _ => rfl⟩
  | some r =>
      refine ⟨_, Builtin.ofName?_eval r, fun items hitems hstrings => ?_, fun hnone => ?_⟩
      · rw [Option.bind_some] at hitems
        rw [RuleConfig.strings, hitems, if_neg hstrings]
      · rw [if_pos]
        rw [RuleConfig.strings]
        split
        next items hitems =>
          exact hnone items hitems
        next => rfl

namespace Rule

/-- The rules without state report what they flag in the value that a tree comes from: position by
position, and at each of them rule by rule.  The callees that are flagged are set by the
configuration. -/
theorem reports_are_flagged_positions {v : Json} {root : Node} (hv : v.WellFormed)
    (h : Node.ofJson v = .ok root) {bs : List Builtin} (hbs : .awaitInLoop ∉ bs) :
    List.Forall₂
      (fun report (flag : Builtin × (List Edge.Label × Json) × Nat) =>
        report.checkId = flag.1.name ∧ report.ordinal = flag.2.2 ∧
          Node.ofJson flag.2.1.2 = .ok report.node ∧
          flag.1.Flags flag.2.1.2 report.extra)
      (reports (bs.map Builtin.rule) root).toList
      (v.positions.zipIdx.flatMap fun p => (bs.filter fun b => b.Flagged p.1.2).map
        fun b => (b, p)) ∧
    ∀ c : Config, ∃ callees, c.builtin? "no-eval" = some (.eval callees) ∧
      (∀ items, c.option? "no-eval" "callees" = some (.array items) →
        items.filterMap Toml.string? ≠ [] →
        callees = items.filterMap Toml.string?) ∧
      ((∀ items, c.option? "no-eval" "callees" = some (.array items) →
        items.filterMap Toml.string? = []) →
        callees = ["eval"]) := by
  have hrules : bs.map Builtin.rule = bs.map fun b => perNode b.name b.description b.inspect :=
    List.map_congr_left fun b hb => Builtin.rule_eq_perNode fun heq => hbs (heq ▸ hb)
  refine ⟨?_, Config.exists_builtin?_eval⟩
  rw [hrules, toList_reports_perNode]
  -- nodes and positions go side by side, and so do the reports on a node and the flags at its
  -- position
  refine forall₂_flatMap (forall₂_standsAt_zipIdx hv h) ?_
  rintro w - p - ⟨hstands, hordinal⟩
  rw [List.forall₂_map_right_iff]
  refine (Builtin.forall₂_inspect hbs (hv.at? hstands.value) hstands.node).imp ?_
  rintro report b ⟨extra, hextra, rfl⟩
  exact ⟨rfl, hordinal, hstands.node, hextra⟩

end Rule

/-! ### An array of what is evaluated -/

def namedIdentifier (name : String) : Json :=
  .object [("name", .string name), ("type", .string "Identifier")]

def evalCall : Json :=
  .object [("callee", namedIdentifier "eval"), ("type", .string "CallExpression")]

def debuggerMark : Json :=
  .object [("type", .string "DebuggerStatement")]

/-- A new array with a call in it, and with a debugger statement under a name that comes before the
others but is no child property. -/
def evalArray : Json :=
  .object [("after", debuggerMark), ("arguments", .array [.null, evalCall]),
    ("callee", namedIdentifier "Array"), ("type", .string "NewExpression")]

theorem wellFormed_evalArray : evalArray.WellFormed := by
  have hname : ∀ name, (namedIdentifier name).WellFormed := fun name =>
    .object (show ["name", "type"].Pairwise (· < ·) by decide)
      (by simpa using ⟨.string _, .string _⟩)
  have hcall : evalCall.WellFormed :=
    .object (show ["callee", "type"].Pairwise (· < ·) by decide)
      (by simpa using ⟨hname _, .string _⟩)
  have hmark : debuggerMark.WellFormed :=
    .object (List.pairwise_singleton _ _) (by simpa using .string _)
  refine .object (show ["after", "arguments", "callee", "type"].Pairwise (· < ·) by decide) ?_
  simpa using ⟨hmark, .array (by simpa using ⟨.null, hcall⟩), hname _, .string _⟩

theorem positions_evalArray :
    evalArray.positions = [([], evalArray), ([⟨"callee", none⟩], namedIdentifier "Array"),
      ([⟨"arguments", some 1⟩], evalCall),
        ([⟨"arguments", some 1⟩, ⟨"callee", none⟩], namedIdentifier "eval"),
      ([⟨"after", none⟩], debuggerMark)] := by
  have hname : ∀ name, (namedIdentifier name).positions = [([], namedIdentifier name)] :=
    fun name => by
    have hsorted : Members.Sorted [("name", Json.string name), ("type", .string "Identifier")] :=
      show ["name", "type"].Pairwise (· < ·) by decide
    rw [Json.positions_eq, namedIdentifier, Json.childNodes_object hsorted rfl]
    rfl
  have hmark : debuggerMark.positions = [([], debuggerMark)] := by
    rw [Json.positions_eq, debuggerMark, Json.childNodes_object (by decide) rfl]
    rfl
  have hcall : evalCall.childNodes = [(⟨"callee", none⟩, namedIdentifier "eval")] := by
    rw [evalCall, Json.childNodes_object (by decide) rfl]
    rfl
  have harray : evalArray.childNodes =
      [(⟨"callee", none⟩, namedIdentifier "Array"), (⟨"arguments", some 1⟩, evalCall),
      (⟨"after", none⟩, debuggerMark)] := by
    rw [evalArray, Json.childNodes_object (by decide) rfl]
    rfl
  rw [Json.positions_eq, harray]
  simp only [List.flatMap_cons, List.flatMap_nil, hmark, hname]
  rw [Json.positions_eq evalCall, hcall]
  simp only [List.flatMap_cons, List.flatMap_nil, hname]
  rfl

theorem exists_ofJson_evalArray : ∃ root, Node.ofJson evalArray = .ok root := by
  have hfailure : failure? (Node.ofJson evalArray) = none := by
    rw [Node.failure?_ofJson wellFormed_evalArray rfl, positions_evalArray]
    rfl
  cases h : Node.ofJson evalArray with
  | ok root => exact ⟨root, rfl⟩
  | error e =>
      rw [h] at hfailure
      cases hfailure

/-- A configuration in which an item of the callees is no string. -/
def runAndEval : Config :=
  ⟨none, .default,
    [("no-eval", ⟨none, [("callees", .array [.string "run", .integer 1, .string "eval"])]⟩)]⟩

namespace Rule

theorem reports_are_flagged_positions_evalArray :
    runAndEval.builtin? "no-eval" = some (.eval ["run", "eval"]) ∧
    ∃ root, evalArray.WellFormed ∧ Node.ofJson evalArray = .ok root ∧
      Builtin.awaitInLoop ∉ [Builtin.debugger, .newArray, .eval ["run", "eval"]] ∧
      (reports ([Builtin.debugger, .newArray, .eval ["run", "eval"]].map Builtin.rule)
        root).toList.map
        (fun report => (report.checkId, report.ordinal, report.extra)) =
        [("no-new-array", 0, none), ("no-eval", 2, some (.object [("callee", .string "eval")])),
          ("no-debugger", 4, none)] := by
  obtain ⟨root, hroot⟩ := exists_ofJson_evalArray
  have hbs : Builtin.awaitInLoop ∉ [Builtin.debugger, .newArray, .eval ["run", "eval"]] := by decide
  obtain ⟨hreports, hconfig⟩ := reports_are_flagged_positions wellFormed_evalArray hroot hbs
  obtain ⟨callees, hbuiltin, hstrings, -⟩ := hconfig runAndEval
  have hcallees : callees = ["run", "eval"] :=
    hstrings [.string "run", .integer 1, .string "eval"] rfl (by decide)
  refine ⟨hcallees ▸ hbuiltin, root, wellFormed_evalArray, hroot, hbs, ?_⟩
  have hflags : (evalArray.positions.zipIdx.flatMap fun p =>
      ([Builtin.debugger, .newArray, .eval ["run", "eval"]].filter fun b => b.Flagged p.1.2).map
        fun b => (b, p)) =
      [(.newArray, ([], evalArray), 0),
          (.eval ["run", "eval"], ([⟨"arguments", some 1⟩], evalCall), 2),
          (.debugger, ([⟨"after", none⟩], debuggerMark), 4)] := by
    rw [positions_evalArray]
    rfl
  rw [hflags] at hreports
  obtain ⟨array, behind, ⟨harray, hzero, -, -, -, hplain⟩, hbehind, hlist⟩ :=
    List.forall₂_cons_right_iff.1 hreports
  obtain ⟨call, last, ⟨hcall, htwo, -, -, name, -, ⟨callee, hcallee, -, hname⟩, hextra⟩,
      hlast, rfl⟩ :=
    List.forall₂_cons_right_iff.1 hbehind
  obtain ⟨mark, rest, ⟨hmark, hfour, -, -, hplain'⟩, hrest, rfl⟩ :=
    List.forall₂_cons_right_iff.1 hlast
  obtain rfl := List.forall₂_nil_right_iff.1 hrest
  cases hcallee
  cases hname
  rw [hlist]
  simp only [List.map_cons, List.map_nil, harray, hzero, hplain, hcall, htwo, hextra, hmark,
    hfour, hplain']
  rfl

end Rule
end Arborist
