import Arborist.Proofs.BatchOutcome

/-!
# Exclude patterns

Exclude patterns come from the settings and from the configuration.  They matter to a run only
through the files that they accept: `Runner.make_eq_map` makes the runner without them first, and
`Runner.files_of_excludes` says that more of them leave out more files and change nothing else.
-/

namespace Arborist

/-- Whether `text` is a pattern that accepts `path`. -/
def Pattern.admits (text path : String) : Bool :=
  (compile text).toOption.any fun p => p.accepts .standard path

def Config.withExclude (c : Config) (exclude : List String) : Config :=
  { c with runner := { c.runner with exclude } }

def Settings.withExclude (s : Settings) (exclude : List String) : Settings :=
  { s with exclude }

namespace Runner

/-- Making a runner with the exclude patterns `own`, and with those that are `configured`, and
running it. -/
def batch (volume : Volume) (config : Config) (settings : Settings) (rules : List Rule)
    (own configured : List String) :
    Except BatchError BatchReport :=
  match make volume (config.withExclude configured) (settings.withExclude own) rules with
  | .error e => .error e
  | .ok r => r.run volume

variable {volume : Volume} {config : Config} {settings : Settings} {rules : List Rule}
  {own configured texts : List String}
  {exclude exclude' : List Pattern} {r : Runner}

/-! ### Patterns as texts -/

theorem exists_mapM_compileExclude (h : ∀ text ∈ texts, ∃ p, Pattern.compile text = .ok p) :
    ∃ exclude, texts.mapM compileExclude = .ok exclude := by
  simp only [mapM_eq_ok_iff, compileExclude_eq_ok_iff]
  induction texts with
  | nil => exact ⟨[], .nil⟩
  | cons text texts ih =>
      obtain ⟨⟨p, hp⟩, hrest⟩ := List.forall_mem_cons.1 h
      obtain ⟨exclude, hexclude⟩ := ih hrest
      exact ⟨p :: exclude, .cons hp hexclude⟩

theorem any_accepts_eq (h : texts.mapM compileExclude = .ok exclude) (path : String) :
    (exclude.any fun p => p.accepts .standard path) =
      texts.any fun text => Pattern.admits text path := by
  rw [mapM_eq_ok_iff] at h
  induction h with
  | nil => rfl
  | cons hp _ ih =>
      rw [compileExclude_eq_ok_iff] at hp
      rw [List.any_cons, List.any_cons, ih, Pattern.admits, hp]
      rfl

/-- Only which texts there are matters. -/
theorem any_admits_congr {texts' : List String} (h : ∀ text, text ∈ texts ↔ text ∈ texts')
    (path : String) :
    (texts.any fun text => Pattern.admits text path) = texts'.any fun text =>
      Pattern.admits text path := by
  rw [Bool.eq_iff_iff, List.any_eq_true, List.any_eq_true]
  simp only [h]

/-! ### Runners that differ in what they exclude -/

theorem make_eq_map (h : (own ++ configured).mapM compileExclude = .ok exclude) :
    make volume (config.withExclude configured) (settings.withExclude own) rules =
      (make volume (config.withExclude []) (settings.withExclude []) rules).map fun r =>
        { r with exclude } := by
  simp only [make, Config.withExclude, Settings.withExclude, h]
  cases resolveRoot volume (settings.root.getD config.runner.root) with
  | error e => rfl
  | ok root =>
      dsimp only
      by_cases hsuffix : settings.suffix.getD config.runner.suffix = ""
      · simp only [hsuffix, if_true]
        rfl
      · simp only [hsuffix, if_false]
        rfl

theorem files_of_excludes {out : Path → Bool}
    (h : ∀ file, { r with exclude := exclude' }.excludes file =
      ({ r with exclude }.excludes file || out file)) :
    { r with exclude := exclude' }.files volume =
      ({ r with exclude }.files volume).filter fun file => !out file := by
  rw [files_eq, files_eq, List.filter_filter]
  refine List.filter_congr fun file _ => ?_
  rw [h, Bool.not_or, Bool.and_comm]

/-- A run that succeeds still does when more files are left out. -/
theorem run_of_excludes {out : Path → Bool} {report : BatchReport}
    (h : ∀ file, { r with exclude := exclude' }.excludes file =
      ({ r with exclude }.excludes file || out file))
    (hrun : { r with exclude }.run volume = .ok report) :
    { r with exclude := exclude' }.run volume =
      .ok (r.reportOn volume (({ r with exclude }.files volume).filter fun file => !out file)) := by
  obtain ⟨hfailure, hpass, -⟩ := run_eq_ok_iff.1 hrun
  refine run_eq_ok_iff.2 ⟨hfailure, ?_, ?_⟩
  · intro file hfile
    rw [files_of_excludes h] at hfile
    exact hpass file (List.mem_of_mem_filter hfile)
  · rw [files_of_excludes h]
    rfl

theorem run_congr_excludes
    (h : ∀ file, { r with exclude := exclude' }.excludes file = { r with exclude }.excludes file) :
    { r with exclude := exclude' }.run volume = { r with exclude }.run volume := by
  have hfiles : { r with exclude := exclude' }.files volume = { r with exclude }.files volume := by
    rw [files_eq, files_eq]
    exact List.filter_congr fun file _ => congrArg not (h file)
  rw [run_eq, run_eq, hfiles]
  rfl

/-- With more exclude patterns a run that succeeds still does, and its report is that on the files
which these do not accept.  The order of the patterns, their repetition, and where they come from do
not matter. -/
theorem excludes_only_subtract {volume : Volume} {config : Config} {settings : Settings}
    {rules : List Rule} {own configured own' configured' extra : List String}
    (hvalid : ∀ text ∈ own ++ configured ++ extra, ∃ p, Pattern.compile text = .ok p)
    (htogether : ∀ text, text ∈ own' ++ configured' ↔ text ∈ own ++ configured ++ extra) :
    (∀ report, batch volume config settings rules own configured = .ok report →
      ∃ r report',
        make volume (config.withExclude configured) (settings.withExclude own) rules = .ok r ∧
        batch volume config settings rules own' configured' = .ok report' ∧
        report.results = (r.files volume).flatMap (r.findings volume) ∧
        report'.results = ((r.files volume).filter fun file =>
          !extra.any fun text => Pattern.admits text (Discovery.relativePath r.root file)).flatMap
            (r.findings volume) ∧
        report'.checked + (((r.files volume).filter fun file =>
          extra.any fun text => Pattern.admits text (Discovery.relativePath r.root file)).countP
            fun file =>
            (volume.content file).isGood) = report.checked ∧
        report'.skipped + (((r.files volume).filter fun file =>
          extra.any fun text => Pattern.admits text (Discovery.relativePath r.root file)).countP
            fun file =>
            (volume.content file).isMalformed) = report.skipped) ∧
    ((∀ text ∈ extra, text ∈ own ++ configured) →
      batch volume config settings rules own' configured' =
        batch volume config settings rules own configured) := by
  obtain ⟨exclude, hexclude⟩ :=
    exists_mapM_compileExclude fun text htext => hvalid text (List.mem_append_left extra htext)
  obtain ⟨exclude', hexclude'⟩ := exists_mapM_compileExclude fun text htext =>
    hvalid text ((htogether text).1 htext)
  simp only [batch, make_eq_map hexclude, make_eq_map hexclude']
  cases make volume (config.withExclude []) (settings.withExclude []) rules with
  | error e => exact ⟨nofun, fun _ => rfl⟩
  | ok r =>
      constructor
      · intro report hrun
        have hout : ∀ file, { r with exclude := exclude' }.excludes file =
            ({ r with exclude }.excludes file ||
            extra.any fun text => Pattern.admits text (Discovery.relativePath r.root file)) := by
          intro file
          rw [excludes, excludes, any_accepts_eq hexclude, any_accepts_eq hexclude',
            any_admits_congr htogether, List.any_append]
        refine ⟨{ r with exclude }, _, rfl, run_of_excludes hout hrun, ?_⟩
        obtain ⟨-, -, rfl⟩ := run_eq_ok_iff.1 hrun
        refine ⟨rfl, rfl, ?_, ?_⟩
        · exact (Nat.add_comm _ _).trans (List.countP_eq_countP_filter_add _ _ _).symm
        · exact (Nat.add_comm _ _).trans (List.countP_eq_countP_filter_add _ _ _).symm
      · intro hextra
        have hsame : ∀ text, text ∈ own' ++ configured' ↔ text ∈ own ++ configured := by
          intro text
          rw [htogether, List.mem_append, or_iff_left_of_imp (hextra text)]
        refine run_congr_excludes fun file => ?_
        rw [excludes, excludes, any_accepts_eq hexclude, any_accepts_eq hexclude',
          any_admits_congr hsame]

/-! ### Leaving out a tree and a file without one -/

theorem compile_b : Pattern.compile "b*" = .ok ⟨[.literal 'b', .anyText]⟩ := by
  have hstar : Pattern.scan 1 (some 'b') ['*'] = .ok [.anyText] :=
    Pattern.scan_star_escape [] 1 (some 'b')
  rw [Pattern.compile, show "b*".toList = ['b', '*'] from rfl,
    Pattern.scan_cons_of_ne (by decide) (by decide) (by decide) 0 none hstar]
  rfl

theorem run_sparing (rules : List Rule) :
    ∃ report, (sparing rules true).run scatteredTrees = .ok report ∧ report.checked = 3 ∧
      report.skipped = 1 := by
  have htrees := content_of_mem_files_properTrees
  simp only [List.forall_mem_cons, List.not_mem_nil] at htrees
  have hstop : ∀ file, (sparing rules true).stop? scatteredTrees file = none ↔
      (scatteredTrees.content file).isUnreadable = false :=
    fun file => Content.stop?_true_eq_none_iff _ _
  refine ⟨_, run_eq_ok_iff.2 ⟨(search_scatteredTrees rfl rfl).1, ?_, rfl⟩, ?_⟩
  · rw [files_scatteredTrees]
    simp [hstop, htrees, content_scatteredTrees_malformed, Content.isUnreadable]
  · rw [files_scatteredTrees]
    simp [reportOn, htrees, content_scatteredTrees_malformed, Content.isGood, Content.isMalformed]

/-- What `b*` leaves out besides: a good file and a malformed one. -/
theorem filter_admits_b (rules : List Rule) :
    ((sparing rules true).files scatteredTrees).filter (fun file =>
      ["b*"].any fun text =>
        Pattern.admits text (Discovery.relativePath (sparing rules true).root file)) =
        (["/t/b/c.ast.json", "/t/b.ast.json"] : List Path) := by
  have hb : ∀ path, Pattern.admits "b*" path =
      Pattern.accepts ⟨[.literal 'b', .anyText]⟩ .standard path := by
    intro path
    rw [Pattern.admits, compile_b]
    rfl
  rw [files_scatteredTrees]
  simp only [hb, List.any_cons, List.any_nil, Bool.or_false, sparing]
  decide +kernel

theorem excludes_only_subtract_scatteredTrees :
    ∃ report report',
      batch scatteredTrees .default sparingSettings [Rule.Debugger.rule] ["z*"] [] = .ok report ∧
      batch scatteredTrees .default sparingSettings [Rule.Debugger.rule] ["b*"] ["z*", "z*"] =
        .ok report' ∧
      report.checked = 3 ∧ report.skipped = 1 ∧ report'.checked = 2 ∧ report'.skipped = 0 := by
  have hvalid : ∀ text ∈ ["z*"] ++ [] ++ ["b*"], ∃ p, Pattern.compile text = .ok p := by
    simp [compile_b, compile_z]
  have htogether : ∀ text, text ∈ ["b*"] ++ ["z*", "z*"] ↔ text ∈ ["z*"] ++ [] ++ ["b*"] := by
    simp [or_comm]
  obtain ⟨report, hrun, hthree, hone⟩ := run_sparing [Rule.Debugger.rule]
  have hmake' : make scatteredTrees (Config.default.withExclude [])
      (sparingSettings.withExclude ["z*"]) [Rule.Debugger.rule] =
        .ok (sparing [Rule.Debugger.rule] true) := make_sparing _
  have hbatch : batch scatteredTrees .default sparingSettings [Rule.Debugger.rule] ["z*"] [] =
      .ok report := by
    rw [batch, hmake']
    exact hrun
  obtain ⟨r, report', hmake, hbatch', -, -, hchecked, hskipped⟩ :=
    (excludes_only_subtract hvalid htogether).1 report hbatch
  obtain rfl : sparing [Rule.Debugger.rule] true = r := Except.ok.inj (hmake'.symm.trans hmake)
  have htrees := content_of_mem_files_properTrees
  simp only [List.forall_mem_cons, List.not_mem_nil] at htrees
  rw [filter_admits_b, hthree] at hchecked
  rw [filter_admits_b, hone] at hskipped
  refine ⟨report, report', hbatch, hbatch', hthree, hone, Nat.succ.inj (Eq.trans ?_ hchecked),
    Nat.succ.inj (Eq.trans ?_ hskipped)⟩
  · simp [htrees, content_scatteredTrees_malformed, Content.isGood]
  · simp [htrees, content_scatteredTrees_malformed, Content.isMalformed]

end Runner
end Arborist
