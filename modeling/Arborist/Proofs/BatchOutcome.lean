import Arborist.Proofs.Discovery
import Arborist.Rule.Builtin

/-!
# What a batch run comes to

`Runner.run_eq` puts a run together from the contents of its files.  From it follows which file
decides how a run ends, what is in the report of one that succeeds, and that files without a tree
leave the results of a run that keeps going as they are.
-/

namespace Arborist
namespace Runner

variable {volume : Volume} {r : Runner}

/-! ### Malformed files -/

variable (volume r) in
def sound : List (Path × Content) :=
  ((r.files volume).map fun file => (file, volume.content file)).filter fun entry =>
    !entry.2.isMalformed

/-- A run that keeps going is made up of the files that are not malformed. -/
theorem map_run_eq_sound (h : r.keepGoing = true) (hfailure : r.failure volume = none) :
    ((r.run volume).map fun report => (report.results, report.checked)) =
      ((r.sound volume).findSome? fun entry => entry.2.stop? true entry.1).elim
        (.ok ((r.sound volume).flatMap fun entry => entry.2.findings r.rules (r.sourceOf entry.1),
          (r.sound volume).countP fun entry => entry.2.isGood)) .error := by
  have hstop : ((r.sound volume).findSome? fun entry => entry.2.stop? true entry.1) =
      (r.files volume).findSome? (r.stop? volume) := by
    rw [sound, findSome?_filter_eq, List.findSome?_map]
    · have hfun : r.stop? volume = fun file => (volume.content file).stop? true file := by
        funext file
        rw [stop?, h]
      rw [hfun]
      rfl
    · rintro ⟨file, content⟩ - hkeep
      cases content <;> simp_all [Content.isMalformed, Content.stop?]
  have hresults : ((r.sound volume).flatMap fun entry =>
      entry.2.findings r.rules (r.sourceOf entry.1)) =
        (r.files volume).flatMap (r.findings volume) := by
    rw [sound, flatMap_filter_eq, List.flatMap_map]
    · rfl
    · rintro ⟨file, content⟩ - hkeep
      cases content <;> simp_all [Content.isMalformed, Content.findings]
  have hchecked : ((r.sound volume).countP fun entry => entry.2.isGood) =
      (r.files volume).countP fun file => (volume.content file).isGood := by
    rw [sound, List.countP_filter, List.countP_map]
    refine List.countP_congr fun file _ => ?_
    cases hcontent : volume.content file <;>
      simp [hcontent, Content.isGood, Content.isMalformed]
  rw [run_of_no_failure hfailure, hstop, hresults, hchecked]
  cases (r.files volume).findSome? (r.stop? volume) <;> rfl

/-- A run that cannot find its files ends in the error of that.  Otherwise, without `keepGoing` it
ends in the error of the first file that is not good, and with `keepGoing` in that of the first file
that cannot be read.  If there is none, the report has, in the order of the files, the findings in
each of them, which depend on what is in the file and on nothing in the other ones, and it counts
the good and the malformed files.  So a run without `keepGoing` that succeeds gives the same report
with it, and malformed files come and go without any effect on the results. -/
theorem run_follows_contents (volume : Volume) (r : Runner) :
    (∀ e, r.discover volume = .error e → r.run volume = .error e) ∧
    ∀ files, r.discover volume = .ok files →
      (r.keepGoing = false →
        ((∃ report, r.run volume = .ok report) ↔
          ∀ file ∈ files, (volume.content file).isGood) ∧
        ∀ e, r.run volume = .error e ↔
          ∃ before file after, files = before ++ file :: after ∧
            (∀ earlier ∈ before, (volume.content earlier).isGood) ∧
            (volume.content file).error? file = some e) ∧
      (r.keepGoing = true →
        ((∃ report, r.run volume = .ok report) ↔
          ∀ file ∈ files, (volume.content file).isUnreadable = false) ∧
        ∀ e, r.run volume = .error e ↔
          ∃ before file after fault, files = before ++ file :: after ∧
            (∀ earlier ∈ before, (volume.content earlier).isUnreadable = false) ∧
            volume.content file = .unreadable fault ∧ e = .io file fault) ∧
      (∀ report, r.run volume = .ok report →
        report.results = (files.flatMap fun file => (volume.content file).findings r.rules
          (Discovery.sourcePath r.suffix (Discovery.relativePath r.root file))) ∧
        report.checked = (files.countP fun file => (volume.content file).isGood) ∧
        report.skipped = (files.countP fun file => (volume.content file).isMalformed) ∧
        report.checked + report.skipped = files.length) ∧
      (∀ report, { r with keepGoing := false }.run volume = .ok report →
        { r with keepGoing := true }.run volume = .ok report ∧ report.skipped = 0) ∧
      ∀ volume' files', r.keepGoing = true → r.discover volume' = .ok files' →
        r.sound volume' = r.sound volume →
        ((r.run volume').map fun report => (report.results, report.checked)) =
          (r.run volume).map fun report => (report.results, report.checked) := by
  refine ⟨fun e he => run_of_failure (discover_eq_error_iff.1 he), fun files hfiles => ?_⟩
  obtain ⟨hfailure, rfl⟩ := discover_eq_ok_iff.1 hfiles
  refine ⟨fun hgoing => ⟨?_, fun e => ?_⟩, fun hgoing => ⟨?_, fun e => ?_⟩, fun report hrun => ?_,
    fun report hrun => ?_, fun volume' files' hgoing hfiles' hsound => ?_⟩
  · rw [exists_run_eq_ok_iff hfailure]
    simp only [stop?, hgoing, Content.stop?_false, Content.error?_eq_none_iff]
  · rw [run_eq_error_iff hfailure]
    simp only [stop?, hgoing, Content.stop?_false, Content.error?_eq_none_iff]
  · rw [exists_run_eq_ok_iff hfailure]
    simp only [stop?, hgoing, Content.stop?_true_eq_none_iff]
  · rw [run_eq_error_iff hfailure]
    simp only [stop?, hgoing, Content.stop?_true_eq_none_iff, Content.stop?_true_eq_some_iff,
      exists_and_left]
  · obtain ⟨-, hpass, rfl⟩ := run_eq_ok_iff.1 hrun
    exact ⟨rfl, rfl, rfl, checked_add_skipped_reportOn fun file hfile =>
      isUnreadable_of_stop?_eq_none (hpass file hfile)⟩
  · obtain ⟨-, hpass, rfl⟩ := run_eq_ok_iff.1 hrun
    have hgood : ∀ file ∈ r.files volume, (volume.content file).isGood = true := by
      intro file hfile
      exact (Content.error?_eq_none_iff _ _).1
        ((Content.stop?_false _ _).symm.trans (hpass file hfile))
    have hpass' : ∀ file ∈ r.files volume, (volume.content file).stop? true file = none :=
      fun file hfile => Content.stop?_true_of_isGood (hgood file hfile)
    refine ⟨run_eq_ok_iff.2 ⟨hfailure, hpass', rfl⟩, List.countP_eq_zero.2 fun file hfile => ?_⟩
    exact Bool.eq_false_iff.1 (Content.isMalformed_eq_false_of_isGood (hgood file hfile))
  · rw [map_run_eq_sound hgoing hfailure,
      map_run_eq_sound hgoing (discover_eq_ok_iff.1 hfiles').1, hsound]

end Runner

/-! ### With a file that holds no tree, and without it -/

theorem parse_debuggerStatement :
    Node.parse "\x7b\"type\":\"DebuggerStatement\"\x7d" = .ok (.ofKind .debuggerStatement) := by
  have hname : (Json.Reader.mk none [] "\x7b\"type\":\"DebuggerStatement\"\x7d".toList).step =
      .more ⟨none, [.object [] "type"], "\"DebuggerStatement\"\x7d".toList⟩ := by
    cbv
  have hvalue : (Json.Reader.mk none [.object [] "type"] "\"DebuggerStatement\"\x7d".toList).step =
      .more ⟨some (.string "DebuggerStatement"), [.object [] "type"], ['\x7d']⟩ := by
    cbv
  have hclose :
      (Json.Reader.mk (some (.string "DebuggerStatement")) [.object [] "type"] ['\x7d']).step =
      .more ⟨some (.object [("type", .string "DebuggerStatement")]), [], []⟩ := by
    cbv
  have hdone :
      (Json.Reader.mk (some (.object [("type", .string "DebuggerStatement")])) [] []).step =
      .done (.object [("type", .string "DebuggerStatement")]) [] := by
    cbv
  have hrun := (Json.Reader.run_of_more hname).trans ((Json.Reader.run_of_more hvalue).trans
    ((Json.Reader.run_of_more hclose).trans (Json.Reader.run_of_done hdone)))
  rw [Node.parse, Json.parse, Json.readAll, hrun]
  exact Node.ofJson_type .debuggerStatement

theorem content_debuggerFile {volume : Volume} {path : Path} {names : List Name}
    (hv : volume.WellFormed) (hpath : path = Path.absolute names)
    (hfile : volume.top.at? names = some debuggerFile) (hsize : path.length < Volume.pathLimit) :
    volume.content path = .tree (.ofKind .debuggerStatement) := by
  subst hpath
  rw [Volume.content, Volume.readText_of_locate (Volume.locate_absolute_of_at? hv hfile) hsize]
  dsimp only
  rw [parse_debuggerStatement]

namespace Runner

open Discovery Rule

/-- Both volumes have the same trees. -/
theorem content_of_mem_files_properTrees :
    ∀ file ∈ (["/t/.git/a[1].ast.json", "/t/b.ast.json", "/t/d.ast.json/e.ast.json"] : List Path),
      scatteredTrees.content file = .tree (.ofKind .debuggerStatement) ∧
        properTrees.content file = .tree (.ofKind .debuggerStatement) := by
  have hboth : ∀ names : List Name, scatteredTrees.top.at? names = some debuggerFile →
      properTrees.top.at? names = some debuggerFile →
      (Path.absolute names).length < Volume.pathLimit →
      scatteredTrees.content (Path.absolute names) = .tree (.ofKind .debuggerStatement) ∧
        properTrees.content (Path.absolute names) = .tree (.ofKind .debuggerStatement) :=
    fun names hscattered hproper hsize =>
      ⟨content_debuggerFile wellFormed_scatteredTrees rfl hscattered hsize,
        content_debuggerFile wellFormed_properTrees rfl hproper hsize⟩
  intro file h
  simp only [List.mem_cons, List.not_mem_nil, or_false] at h
  rcases h with rfl | rfl | rfl
  · exact hboth ["t", ".git", "a[1].ast.json"] rfl rfl (by decide)
  · exact hboth ["t", "b.ast.json"] rfl rfl (by decide)
  · exact hboth ["t", "d.ast.json", "e.ast.json"] rfl rfl (by decide)

theorem content_scatteredTrees_malformed :
    scatteredTrees.content ("/t/b/c.ast.json" : String) = .malformed (.notAnObject .array) := by
  have hat : scatteredTrees.top.at? ["t", "b", "c.ast.json"] = some (.file "[]".toUTF8) := rfl
  have htext : scatteredTrees.readText ("/t/b/c.ast.json" : String) = .ok "[]" :=
    Volume.readText_of_locate (Volume.locate_absolute_of_at? wellFormed_scatteredTrees hat)
      (by decide)
  have hparse : Node.parse "[]" = .error (.notAnObject .array) := by cbv
  rw [Volume.content, htext]
  dsimp only
  rw [hparse]

theorem sound_properTrees (rules : List Rule) (keepGoing : Bool) :
    (sparing rules keepGoing).sound properTrees =
      (sparing rules keepGoing).sound scatteredTrees := by
  have htrees := content_of_mem_files_properTrees
  simp only [List.forall_mem_cons, List.not_mem_nil] at htrees
  rw [sound, sound, files_scatteredTrees, files_properTrees]
  simp [htrees, content_scatteredTrees_malformed, Content.isMalformed]

theorem run_follows_contents_scatteredTrees :
    ((∃ report, (sparing [Debugger.rule] true).run scatteredTrees = .ok report) ∧
      ∀ report, (sparing [Debugger.rule] true).run scatteredTrees = .ok report →
        report.checked = 3 ∧ report.skipped = 1) ∧
    (sparing [Debugger.rule] false).run scatteredTrees =
      .error (.parse ("/t/b/c.ast.json" : String) (.notAnObject .array)) ∧
    (sparing [Debugger.rule] true).sound properTrees =
      (sparing [Debugger.rule] true).sound scatteredTrees ∧
    (((sparing [Debugger.rule] true).run properTrees).map fun report =>
      (report.results, report.checked)) =
      ((sparing [Debugger.rule] true).run scatteredTrees).map fun report =>
        (report.results, report.checked) := by
  have htrees := content_of_mem_files_properTrees
  simp only [List.forall_mem_cons, List.not_mem_nil] at htrees
  have hfound : ∀ keepGoing, (sparing [Debugger.rule] keepGoing).discover scatteredTrees =
      .ok _ := fun keepGoing =>
    discover_eq_ok_iff.2 ⟨(search_scatteredTrees rfl rfl).1, files_scatteredTrees _ keepGoing⟩
  have hfound' : (sparing [Debugger.rule] true).discover properTrees = .ok _ :=
    discover_eq_ok_iff.2 ⟨(search_properTrees rfl rfl).1, files_properTrees _ true⟩
  obtain ⟨-, hgoing, hreport, -, hsound⟩ :=
    (run_follows_contents scatteredTrees (sparing [Debugger.rule] true)).2 _ (hfound true)
  obtain ⟨hstopping, -⟩ :=
    (run_follows_contents scatteredTrees (sparing [Debugger.rule] false)).2 _ (hfound false)
  refine ⟨⟨?_, fun report hrun => ?_⟩, ?_, sound_properTrees _ _,
    hsound properTrees _ rfl hfound' (sound_properTrees _ _)⟩
  · refine (hgoing rfl).1.2 ?_
    simp [htrees, content_scatteredTrees_malformed, Content.isUnreadable]
  · obtain ⟨-, hchecked, hskipped, -⟩ := hreport report hrun
    rw [hchecked, hskipped]
    simp [htrees, content_scatteredTrees_malformed, Content.isGood, Content.isMalformed]
  · refine ((hstopping rfl).2 _).2 ⟨["/t/.git/a[1].ast.json"], _, _, rfl, ?_, ?_⟩
    · simp [htrees, Content.isGood]
    · rw [content_scatteredTrees_malformed, Content.error?]

end Runner
end Arborist
