import Arborist.Command.Check
import Arborist.Proofs.BatchOutcome
import Arborist.Proofs.ConfigOrigin
import Arborist.Proofs.SharedPass

/-!
# Disabling a rule

A built-in rule signs its reports with its name, and it makes the same ones whichever rules it
shares a pass with.  So the reports of fewer rules are the reports of all of them but for those with
the names of the others (`Rule.reports_filter`), and a check under a configuration that disables a
rule finds what it would have found otherwise but for that.
-/

namespace Arborist

/-! ### Reports by name -/

namespace Rule

/-- A rule whose reports carry its name, whatever it has been told. -/
def Signs (r : Rule) : Prop :=
  ∀ told : List (Event Visit × Scene), ∀ call ∈ (r.attend told).log,
    ∀ report ∈ call.reaction.reports,
    report.checkId = r.name

end Rule

theorem Builtin.signs_rule (b : Builtin) : b.rule.Signs := by
  refine Rule.forall_mem_log fun e s state report hreport => ?_
  cases e with
  | enter v =>
      obtain ⟨extra, rfl⟩ := b.eq_report_of_mem_enter hreport
      rfl
  | leave v =>
      rw [Rule.answer, Builtin.leave_reaction] at hreport
      cases hreport

namespace Rule

open Attendee

/-- In a pass of rules that neither mind each other nor skip, every rule follows all events. -/
theorem toList_reports_eq {rules : List Rule} (h : Unminding rules) (root : Node) :
    (reports rules root).toList =
      inEventOrder ((Visit.ofRoot root).events fun _ => .descend).length
        (rules.map fun r => r.follow ((Visit.ofRoot root).events fun _ => .descend)) := by
  have hlogs := congrArg (List.map (List.map fun call : Call => call.reaction.reports))
    (h.map_log_attendance root)
  rw [List.map_map, List.map_map] at hlogs
  rw [reports_eq_inEventOrder, seen_eq_heard, events_heard_of_neverSkips h.neverSkips]
  refine inEventOrder_congr ?_ _
  rw [List.map_map]
  exact hlogs

theorem checkId_of_mem_reactionAt {r : Rule} (h : r.Signs) {events : List (Event Visit)} {k : Nat}
    {report : Report}
    (hreport : report ∈ ((r.follow events).reactionAt k).reports) : report.checkId = r.name := by
  rw [reactionAt] at hreport
  cases hcall : (r.follow events).log[k]? with
  | none => simp [hcall, Reaction.none] at hreport
  | some call =>
      rw [hcall] at hreport
      exact h _ call (List.mem_of_getElem? hcall) report hreport

/-- Leaving out rules by their names leaves out their reports and changes nothing else. -/
theorem reports_filter {rules : List Rule} (hrules : Unminding rules)
    (hsigns : ∀ r ∈ rules, r.Signs) (keep : String → Bool) (root : Node) :
    (reports (rules.filter fun r => keep r.name) root).toList =
      (reports rules root).toList.filter fun report => keep report.checkId := by
  rw [toList_reports_eq hrules,
    toList_reports_eq (hrules.of_subset fun _ hr => List.mem_of_mem_filter hr)]
  generalize ((Visit.ofRoot root).events fun _ => .descend) = events
  simp only [inEventOrder, List.flatMap_map, List.filter_flatMap]
  refine List.flatMap_congr fun k _ => ?_
  -- At one event a rule's reports are all kept or all left out.
  have hname : ∀ r ∈ rules, ∀ report ∈ ((r.follow events).reactionAt k).reports,
      keep report.checkId = keep r.name :=
    fun r hr report hreport => congrArg keep (checkId_of_mem_reactionAt (hsigns r hr) hreport)
  have hdropped : ∀ r ∈ rules, keep r.name = false →
      ((r.follow events).reactionAt k).reports.filter (fun report => keep report.checkId) = [] := by
    intro r hr hkeep
    refine List.filter_eq_nil_iff.2 fun report hreport => ?_
    rw [hname r hr report hreport, hkeep]
    exact Bool.false_ne_true
  rw [← flatMap_filter_eq hdropped]
  refine List.flatMap_congr fun r hr => (List.filter_eq_self.2 fun report hreport => ?_).symm
  obtain ⟨hr, hkeep⟩ := List.mem_filter.1 hr
  rw [hname r hr report hreport, hkeep]

end Rule

/-! ### Configurations -/

namespace Config

/-- The configuration with the rule `name` disabled.  Its options stay as they are. -/
def disable (c : Config) (name : String) : Config :=
  { c with
    rules :=
      Members.insert c.rules name { (c.rule? name).getD ⟨none, []⟩ with enabled := some false } }

variable (c : Config) (name other : String)

theorem rule?_disable :
    (c.disable name).rule? other =
      if other = name then some { (c.rule? name).getD ⟨none, []⟩ with enabled := some false }
        else c.rule? other :=
  Members.find?_insert _ _ _ _

theorem isEnabled_disable :
    (c.disable name).isEnabled other = (c.isEnabled other && other != name) := by
  rw [isEnabled, rule?_disable]
  by_cases h : other = name
  · simp [h]
  · simp [h, isEnabled]

theorem effectivePreset_disable : (c.disable name).effectivePreset = c.effectivePreset := rfl

theorem additions_disable :
    (c.disable name).additions = c.additions.filter fun other => other != name := by
  rw [additions, additions, List.filter_filter]
  refine List.filter_congr fun other _ => ?_
  rw [rule?_disable, effectivePreset_disable]
  by_cases h : other = name
  · simp [h]
  · simp [h]

end Config

/-- Having no callees given is as good as having the default ones. -/
theorem Builtin.ofName?_defaultCallees (name : String) :
    ofName? name Rule.Eval.defaultCallees = ofName? name [] := by
  rw [ofName?, ofName?]
  cases hfind : all.find? fun b => b.name == name with
  | none => rfl
  | some b =>
      have hmem := List.mem_of_find?_eq_some hfind
      simp only [all, List.mem_cons, List.not_mem_nil, or_false] at hmem
      rcases hmem with rfl | rfl | rfl | rfl <;> rfl

theorem Builtin.name_of_ofName? {name : String} {callees : List String} {b : Builtin}
    (h : ofName? name callees = some b) :
    b.name = name := by
  obtain ⟨b', hfind, rfl⟩ := Option.map_eq_some_iff.1 h
  have hname := List.find?_some hfind
  rw [← beq_iff_eq.1 hname]
  cases b' <;> rfl

namespace Config

variable (c : Config) (name other : String)

theorem builtin?_disable : (c.disable name).builtin? other = c.builtin? other := by
  rw [builtin?, builtin?, rule?_disable]
  split
  next h =>
    subst h
    cases c.rule? other with
    | none => exact Builtin.ofName?_defaultCallees other
    | some r => rfl
  next => rfl

/-- The rules of some names but one are those of all the names but the one with that name. -/
theorem filterMap_builtin?_filter (names : List String) :
    (names.filter fun other => other != name).filterMap c.builtin? =
      (names.filterMap c.builtin?).filter fun b => b.name != name := by
  induction names with
  | nil => rfl
  | cons first names ih =>
      cases hfirst : c.builtin? first with
      | none =>
          rw [List.filterMap_cons_none hfirst, ← ih, List.filter_cons]
          split
          · rw [List.filterMap_cons_none hfirst]
          · rfl
      | some b =>
          rw [List.filterMap_cons_some hfirst, List.filter_cons, List.filter_cons,
            Builtin.name_of_ofName? hfirst, ← ih]
          split
          · rw [List.filterMap_cons_some hfirst]
          · rfl

/-- The rules that are left when one is disabled, whether the preset has it or not. -/
theorem rules_disable :
    (((c.disable name).selected.map Builtin.rule).filter fun rule =>
      (c.disable name).isEnabled rule.name) =
      ((c.selected.map Builtin.rule).filter fun rule => c.isEnabled rule.name).filter fun rule =>
        rule.name != name := by
  have hbuiltin : (c.disable name).builtin? = c.builtin? :=
    funext fun other => c.builtin?_disable name other
  rw [selected, selected, hbuiltin, additions_disable, effectivePreset_disable,
    List.filterMap_append, List.filterMap_append, filterMap_builtin?_filter]
  simp only [List.filter_map, List.filter_append, List.filter_filter, isEnabled_disable,
    Function.comp_def]
  refine congrArg _ (congrArg₂ _ ?_ ?_)
  · exact List.filter_congr fun b _ => Bool.and_comm _ _
  · refine List.filter_congr fun b _ => ?_
    rw [Builtin.name, Bool.and_assoc, Bool.and_self, Bool.and_comm]

end Config

/-! ### Checks -/

/-- The report without the findings under `name`.  The files are counted as before. -/
def BatchReport.without (name : String) (report : BatchReport) : BatchReport :=
  { report with results := report.results.filter fun finding => finding.checkId != name }

namespace Runner

variable {volume : Volume} {r : Runner} {name : String}

theorem make_eq_map_rules {config : Config} {settings : Settings} {rules : List Rule} :
    make volume config settings rules =
      (make volume config settings []).map fun r =>
        { r with rules := rules.filter fun rule => config.isEnabled rule.name } := by
  rw [make, make]
  cases resolveRoot volume (settings.root.getD config.runner.root) with
  | error e => rfl
  | ok root =>
      dsimp only
      split
      · rfl
      · cases (settings.exclude ++ config.runner.exclude).mapM compileExclude <;> rfl

def without (name : String) (r : Runner) : Runner :=
  { r with rules := r.rules.filter fun rule => rule.name != name }

theorem files_without : (r.without name).files volume = r.files volume := rfl

theorem stop?_without : (r.without name).stop? volume = r.stop? volume := rfl

theorem findings_without (h : ∀ rule ∈ r.rules, ∃ b : Builtin, b.rule = rule) (file : Path) :
    (r.without name).findings volume file = (r.findings volume file).filter fun finding =>
      finding.checkId != name := by
  have hsigns : ∀ rule ∈ r.rules, rule.Signs := by
    intro rule hrule
    obtain ⟨b, rfl⟩ := h rule hrule
    exact b.signs_rule
  rw [findings, findings]
  cases volume.content file with
  | tree root =>
      rw [Content.findings, Content.findings, without,
        Rule.reports_filter (Rule.unminding_of_builtin h) hsigns fun other => other != name,
        List.filter_map]
      rfl
  | malformed e => rfl
  | unreadable fault => rfl

theorem reportOn_without (h : ∀ rule ∈ r.rules, ∃ b : Builtin, b.rule = rule) (files : List Path) :
    (r.without name).reportOn volume files = (r.reportOn volume files).without name := by
  rw [reportOn, reportOn, BatchReport.without, List.filter_flatMap, funext (findings_without h)]

/-- Rules do not decide whether a run succeeds, and those left out take their findings with them. -/
theorem run_without (h : ∀ rule ∈ r.rules, ∃ b : Builtin, b.rule = rule) :
    (r.without name).run volume = (r.run volume).map (BatchReport.without name) := by
  have hfailure : (r.without name).failure volume = r.failure volume := rfl
  rw [run_eq, run_eq, hfailure, files_without, stop?_without, reportOn_without h]
  cases r.failure volume with
  | some e => rfl
  | none => cases (r.files volume).findSome? (r.stop? volume) <;> rfl

end Runner

namespace Command.CheckOptions

variable {o : CheckOptions} {s : Session} {config : Config}

theorem runner_disable (ho : o.rules = none) (s : Session) (config : Config) (name : String) :
    o.runner s (config.disable name) = (o.runner s config).map (Runner.without name) := by
  have hbuiltins : ∀ c, o.builtins c = c.selected := by
    intro c
    rw [builtins, ho]
  have hmake : Runner.make s.volume (config.disable name) o.settings [] =
      Runner.make s.volume config o.settings [] := rfl
  rw [runner, runner, hbuiltins, hbuiltins, Runner.make_eq_map_rules, hmake, Config.rules_disable]
  refine Eq.trans ?_ (congrArg _ Runner.make_eq_map_rules.symm)
  cases Runner.make s.volume config o.settings [] <;> rfl

theorem exists_builtin_of_runner {r : Runner} (h : o.runner s config = .ok r) :
    ∀ rule ∈ r.rules, ∃ b : Builtin, b.rule = rule := by
  obtain ⟨root, exclude, -, -, -, rfl⟩ := Runner.make_eq_ok_iff.1 h
  intro rule hrule
  obtain ⟨b, -, hb⟩ := List.mem_map.1 (List.mem_of_mem_filter hrule)
  exact ⟨b, hb⟩

theorem result_of_runner {r : Runner} (h : o.runner s config = .ok r) :
    (o.checkUnder s config).2 = (r.run s.volume).mapError .run := by
  rw [checkUnder, h]
  rfl

theorem result_of_runner_error {e : BatchError} (h : o.runner s config = .error e) :
    (o.checkUnder s config).2 = .error (.make e) := by
  rw [checkUnder, h]

theorem result_of_load {explicit : Option Path}
    (h : (o.origin s explicit).load s.volume = .ok config) :
    (o.check s explicit).2 = (o.checkUnder s config).2 := by
  rw [check]
  dsimp only
  rw [h]

/-- A check under a configuration in which a rule is disabled as well fails in the same way or gives
the same report without the findings of that rule, be it a rule of the preset or not, and whatever
the preset is. -/
theorem disabling_removes_findings {o : CheckOptions} (ho : o.rules = none) (s : Session)
    (config : Config) (name : String) :
    (o.checkUnder s (config.disable name)).2 =
      (o.checkUnder s config).2.map (BatchReport.without name) ∧
    ∀ explicit explicit', (o.origin s explicit).load s.volume = .ok config →
      (o.origin s explicit').load s.volume = .ok (config.disable name) →
      (o.check s explicit').2 = (o.check s explicit).2.map (BatchReport.without name) := by
  have hunder : (o.checkUnder s (config.disable name)).2 =
      (o.checkUnder s config).2.map (BatchReport.without name) := by
    have hdisable := runner_disable ho s config name
    cases hrunner : o.runner s config with
    | error e =>
        rw [hrunner] at hdisable
        rw [result_of_runner_error hrunner, result_of_runner_error hdisable]
        rfl
    | ok r =>
        rw [hrunner] at hdisable
        rw [result_of_runner hrunner, result_of_runner hdisable,
          Runner.run_without (exists_builtin_of_runner hrunner)]
        cases r.run s.volume <;> rfl
  refine ⟨hunder, fun explicit explicit' hload hload' => ?_⟩
  rw [result_of_load hload, result_of_load hload', hunder]

end Command.CheckOptions

/-! ### One rule fewer -/

/-- A configuration given by hand is the one in its file. -/
theorem Config.Origin.load_explicit {volume : Volume} {path : Path} {names : List Name}
    {text : String} {preset : Option String} {runner : RunnerConfig}
    {rules : List (String × Option Bool)} (hv : volume.WellFormed)
    (hpath : path = Path.absolute names) (hfile : volume.top.at? names = some (.file text.toUTF8))
    (hsize : path.length < Volume.pathLimit)
    (hparts : (parse text).toOption.bind parts? = some (preset, runner, rules)) :
    (Origin.explicit path).load volume =
      .ok (anchored path ⟨preset, runner, rules.map fun r => (r.1, ⟨r.2, []⟩)⟩) := by
  subst hpath
  rw [load, ofFile, Volume.readText_of_locate (Volume.locate_absolute_of_at? hv hfile) hsize]
  dsimp only
  rw [parse_of_parts? hparts]
  rfl

def loudText : String := "[rules.no-debugger]\nenabled = true\n"

def quietText : String := "[rules.no-debugger]\nenabled = false\n"

/-- A tree file, and the configurations `loudText` and `quietText` in files of their own. -/
def configuredTree : Volume :=
  (((Volume.mk [] []).put ["t", "a.ast.json"] debuggerFile).put
    ["loud.toml"] (.file loudText.toUTF8)).put ["quiet.toml"] (.file quietText.toUTF8)

theorem wellFormed_configuredTree : configuredTree.WellFormed := by
  have hempty : (Volume.mk [] []).WellFormed := Entry.WellFormed.nil
  exact ((hempty.put (by decide) (.file _)).put (by decide) (.file _)).put (by decide) (.file _)

/-- The configuration of `loudText`, as it is read from the top directory. -/
def loudConfig : Config :=
  ⟨none, { RunnerConfig.default with root := "/." }, [("no-debugger", ⟨some true, []⟩)]⟩

theorem load_loud :
    (Config.Origin.explicit "/loud.toml").load configuredTree = .ok loudConfig := by
  have hparts : (Config.parse loudText).toOption.bind Config.parts? =
      some (none, .default, [("no-debugger", some true)]) := by
    decide +kernel
  exact @Config.Origin.load_explicit configuredTree _ ["loud.toml"] loudText none .default
    [("no-debugger", some true)] wellFormed_configuredTree rfl rfl (by decide) hparts

theorem load_quiet :
    (Config.Origin.explicit "/quiet.toml").load configuredTree =
      .ok (loudConfig.disable "no-debugger") := by
  have hparts : (Config.parse quietText).toOption.bind Config.parts? =
      some (none, .default, [("no-debugger", some false)]) := by
    decide +kernel
  exact @Config.Origin.load_explicit configuredTree _ ["quiet.toml"] quietText none .default
    [("no-debugger", some false)] wellFormed_configuredTree rfl rfl (by decide) hparts

namespace Command.CheckOptions

def configuredOptions : CheckOptions := ⟨some ("/t" : String), .text, none, [], none, false⟩

def configuredSession : Session := ⟨configuredTree, none, none⟩

def loudRunner : Runner :=
  ⟨("/t" : String), ".ast.json", Preset.default.builtins.map Builtin.rule, [], false⟩

theorem runner_loudConfig :
    configuredOptions.runner configuredSession loudConfig = .ok loudRunner := by
  have hselected : loudConfig.selected = Preset.default.builtins := by decide
  have hrules : ((loudConfig.selected.map Builtin.rule).filter fun rule =>
      loudConfig.isEnabled rule.name) = Preset.default.builtins.map Builtin.rule := by
    rw [hselected]
    rfl
  refine Runner.make_eq_ok_iff.2 ⟨_, [], rfl, by decide, rfl, ?_⟩
  rw [loudRunner, ← hrules]
  rfl

theorem discover_configuredTree :
    loudRunner.discover configuredTree = .ok (["/t/a.ast.json"] : List Path) := by
  have hreaches : loudRunner.Reaches configuredTree ["t"] [("a.ast.json", debuggerFile)] :=
    .of_top rfl (by decide) (by decide) rfl (by decide)
  rw [Runner.discover_eq_ok_iff, Runner.files_eq, Runner.failure, Runner.candidates,
    hreaches.search_eq wellFormed_configuredTree]
  simp only [debuggerFile, Listing.places]
  exact ⟨rfl, rfl⟩

theorem content_configuredTree :
    configuredTree.content ("/t/a.ast.json" : String) = .tree (.ofKind .debuggerStatement) :=
  @content_debuggerFile _ _ ["t", "a.ast.json"] wellFormed_configuredTree rfl rfl (by decide)

theorem checkIds_debuggerStatement :
    (Rule.reports (Preset.default.builtins.map Builtin.rule)
      (.ofKind .debuggerStatement)).toList.map
      Report.checkId = ["no-debugger"] := by
  rw [Rule.reports, Rule.reportInto, Rule.run_ofKind]
  rfl

theorem disabling_removes_findings_configuredTree :
    configuredOptions.rules = none ∧
    (configuredOptions.origin configuredSession (some ("/loud.toml" : String))).load
      configuredTree = .ok loudConfig ∧
    (configuredOptions.origin configuredSession (some ("/quiet.toml" : String))).load
      configuredTree = .ok (loudConfig.disable "no-debugger") ∧
    ∃ report,
      (configuredOptions.check configuredSession (some ("/loud.toml" : String))).2 = .ok report ∧
      report.results.map Finding.checkId = ["no-debugger"] ∧
      (configuredOptions.check configuredSession (some ("/quiet.toml" : String))).2 =
        .ok (report.without "no-debugger") := by
  have hrun : loudRunner.run configuredTree =
      .ok (loudRunner.reportOn configuredTree (["/t/a.ast.json"] : List Path)) := by
    obtain ⟨hfailure, hfiles⟩ := Runner.discover_eq_ok_iff.1 discover_configuredTree
    refine Runner.run_eq_ok_iff.2 ⟨hfailure, ?_, by rw [hfiles]⟩
    rw [hfiles, List.forall_mem_singleton, Runner.stop?, content_configuredTree]
    rfl
  have hall : (configuredOptions.check configuredSession (some ("/loud.toml" : String))).2 =
      .ok (loudRunner.reportOn configuredTree (["/t/a.ast.json"] : List Path)) := by
    have hunder : (configuredOptions.checkUnder configuredSession loudConfig).2 =
        (loudRunner.run configuredTree).mapError .run := result_of_runner runner_loudConfig
    have hload := @result_of_load configuredOptions configuredSession loudConfig
      (some ("/loud.toml" : String)) load_loud
    rw [hload, hunder, hrun]
    rfl
  refine ⟨rfl, load_loud, load_quiet, _, hall, ?_, ?_⟩
  · rw [Runner.reportOn, List.flatMap_singleton, Runner.findings, content_configuredTree,
      Content.findings, List.map_map]
    exact checkIds_debuggerStatement
  · have hquiet := (disabling_removes_findings (o := configuredOptions) rfl configuredSession
      loudConfig "no-debugger").2 (some ("/loud.toml" : String)) (some ("/quiet.toml" : String))
      load_loud load_quiet
    rw [hquiet, hall]
    rfl

end Command.CheckOptions
end Arborist
