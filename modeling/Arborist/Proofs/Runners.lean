import Arborist.Batch.Runner
import Arborist.Proofs.Decoding

/-!
# Runners

What making a runner takes is said once, in `Runner.make_eq_ok_iff`.

A tree file holds a tree, or it is malformed, or it cannot be read.  Its `Content` says which, and
nothing but its text decides that.  A file stops a run or it does not (`Content.stop?`);
`Runner.run_eq` says that a run whose files can be found ends in the first error that stops it, and
otherwise in a report that is put together file by file.  Everything about runs is read off that
equation.
-/

namespace Arborist

/-! ### Lists with something left out -/

section Lists

variable {α : Type*} {β : Type*} {keep : α → Bool} {l : List α}

/-- What is left out of a list does not matter to the first result if it has none. -/
theorem findSome?_filter_eq {f : α → Option β} (h : ∀ a ∈ l, keep a = false → f a = none) :
    (l.filter keep).findSome? f = l.findSome? f := by
  induction l with
  | nil => rfl
  | cons a l ih =>
      rw [List.forall_mem_cons] at h
      cases ha : keep a with
      | true => rw [List.filter_cons_of_pos ha, List.findSome?_cons, List.findSome?_cons, ih h.2]
      | false => rw [List.filter_cons_of_neg (by simp [ha]), List.findSome?_cons, h.1 ha, ih h.2]

theorem flatMap_filter_eq {f : α → List β} (h : ∀ a ∈ l, keep a = false → f a = []) :
    (l.filter keep).flatMap f = l.flatMap f := by
  induction l with
  | nil => rfl
  | cons a l ih =>
      rw [List.forall_mem_cons] at h
      cases ha : keep a with
      | true => rw [List.filter_cons_of_pos ha, List.flatMap_cons, List.flatMap_cons, ih h.2]
      | false =>
          rw [List.filter_cons_of_neg (by simp [ha]), List.flatMap_cons, h.1 ha, ih h.2,
            List.nil_append]

end Lists

/-! ### What is in a file -/

/-- What is in a tree file: all that a run gets to know of it, whatever the rules are. -/
inductive Content where
  | tree (root : Node)
  | malformed (error : TreeError)
  | unreadable (fault : Volume.Fault)

namespace Content

def isGood : Content → Bool
  | .tree _ => true
  | _ => false

def isMalformed : Content → Bool
  | .malformed _ => true
  | _ => false

def isUnreadable : Content → Bool
  | .unreadable _ => true
  | _ => false

def error? (path : Path) : Content → Option BatchError
  | .tree _ => none
  | .malformed e => some (.parse path e)
  | .unreadable fault => some (.io path fault)

/-- The error that stops a run at a file.  A malformed one stops it unless `keepGoing`. -/
def stop? (keepGoing : Bool) (path : Path) (c : Content) : Option BatchError :=
  if keepGoing && c.isMalformed then none else c.error? path

def findings (rules : List Rule) (source : String) : Content → List Finding
  | .tree root => (Rule.reports rules root).toList.map (Finding.ofReport source)
  | _ => []

def outcome (rules : List Rule) (source : String) : Content → Outcome
  | .tree root => .good ((tree root).findings rules source)
  | .malformed e => .malformed e
  | .unreadable fault => .unreadable fault

theorem error?_eq_none_iff (path : Path) (c : Content) :
    c.error? path = none ↔ c.isGood = true := by
  cases c <;> simp [error?, isGood]

theorem stop?_false (path : Path) (c : Content) : c.stop? false path = c.error? path := by
  rw [stop?, Bool.false_and, if_neg Bool.false_ne_true]

theorem stop?_true_eq_some_iff (path : Path) (c : Content) (e : BatchError) :
    c.stop? true path = some e ↔ ∃ fault, c = .unreadable fault ∧ e = .io path fault := by
  cases c <;> simp [stop?, isMalformed, error?, eq_comm]

theorem stop?_true_eq_none_iff (path : Path) (c : Content) :
    c.stop? true path = none ↔ c.isUnreadable = false := by
  cases c <;> simp [stop?, isMalformed, error?, isUnreadable]

/-- Keeping on going lets more files pass. -/
theorem stop?_true_of_isGood {path : Path} {c : Content} (h : c.isGood = true) :
    c.stop? true path = none := by
  rw [stop?_true_eq_none_iff]
  cases c with
  | tree root => rfl
  | malformed e => rfl
  | unreadable fault => cases h

theorem isMalformed_eq_false_of_isGood {c : Content} (h : c.isGood = true) :
    c.isMalformed = false := by
  cases c with
  | tree root => rfl
  | malformed e => cases h
  | unreadable fault => rfl

end Content

def Volume.content (volume : Volume) (path : Path) : Content :=
  match volume.readText path with
  | .error fault => .unreadable fault
  | .ok text =>
    match Node.parse text with
    | .error e => .malformed e
    | .ok root => .tree root

namespace Runner

variable (volume : Volume) (r : Runner)

def findings (file : Path) : List Finding :=
  (volume.content file).findings r.rules (r.sourceOf file)

def stop? (file : Path) : Option BatchError :=
  (volume.content file).stop? r.keepGoing file

def reportOn (files : List Path) : BatchReport where
  results := files.flatMap (r.findings volume)
  checked := files.countP fun file => (volume.content file).isGood
  skipped := files.countP fun file => (volume.content file).isMalformed

/-! ### The report of a run -/

theorem check_eq (file : Path) :
    r.check volume file = ⟨file, (volume.content file).outcome r.rules (r.sourceOf file)⟩ := by
  rw [check, Volume.content]
  cases volume.readText file with
  | error fault => rfl
  | ok text =>
      dsimp only
      rw [checkText]
      cases Node.parse text <;> rfl

theorem reportOn_cons_tree {file : Path} {root : Node} (h : volume.content file = .tree root)
    (files : List Path) :
    r.reportOn volume (file :: files) =
      { r.reportOn volume files with
        results := (Rule.reports r.rules root).toList.map (Finding.ofReport (r.sourceOf file)) ++
          (r.reportOn volume files).results
        checked := (r.reportOn volume files).checked + 1 } := by
  simp [reportOn, findings, h, Content.findings, Content.isGood, Content.isMalformed]

theorem reportOn_cons_malformed {file : Path} {e : TreeError}
    (h : volume.content file = .malformed e) (files : List Path) :
    r.reportOn volume (file :: files) =
      { r.reportOn volume files with skipped := (r.reportOn volume files).skipped + 1 } := by
  simp [reportOn, findings, h, Content.findings, Content.isGood, Content.isMalformed]

theorem collect_map_check (files : List Path) :
    Survey.collect r.keepGoing (files.map (r.check volume)) =
      (files.findSome? (r.stop? volume)).elim (.ok (r.reportOn volume files)) .error := by
  induction files with
  | nil => rfl
  | cons file files ih =>
      rw [List.map_cons, check_eq, List.findSome?_cons, stop?]
      cases hcontent : volume.content file with
      | unreadable fault => cases r.keepGoing <;> rfl
      | malformed e =>
          cases hgoing : r.keepGoing with
          | false => rfl
          | true =>
              rw [hgoing] at ih
              rw [Content.outcome, Survey.collect, if_pos rfl, ih,
                reportOn_cons_malformed volume r hcontent]
              cases files.findSome? (r.stop? volume) <;> rfl
      | tree root =>
          have hpass : (Content.tree root).stop? r.keepGoing file = none := by
            cases r.keepGoing <;> rfl
          rw [Content.outcome, Survey.collect, ih, hpass, reportOn_cons_tree volume r hcontent]
          cases files.findSome? (r.stop? volume) <;> rfl

/-- A run whose files can be found ends in the first error that stops it, and otherwise in the
report on all files. -/
theorem run_eq :
    r.run volume =
      match r.failure volume with
      | some e => .error e
      | none =>
        ((r.files volume).findSome? (r.stop? volume)).elim
          (.ok (r.reportOn volume (r.files volume))) .error := by
  rw [← collect_map_check]
  rfl

variable {volume r}

theorem run_of_failure {e : BatchError} (h : r.failure volume = some e) :
    r.run volume = .error e := by
  rw [run_eq, h]

theorem run_of_no_failure (h : r.failure volume = none) :
    r.run volume =
      ((r.files volume).findSome? (r.stop? volume)).elim
        (.ok (r.reportOn volume (r.files volume))) .error := by
  rw [run_eq, h]

theorem discover_eq_ok_iff {files : List Path} :
    r.discover volume = .ok files ↔ r.failure volume = none ∧ r.files volume = files := by
  rw [discover]
  cases r.failure volume <;> simp

theorem discover_eq_error_iff {e : BatchError} :
    r.discover volume = .error e ↔ r.failure volume = some e := by
  rw [discover]
  cases r.failure volume <;> simp

theorem run_eq_ok_iff {report : BatchReport} :
    r.run volume = .ok report ↔
      r.failure volume = none ∧ (∀ file ∈ r.files volume, r.stop? volume file = none) ∧
        report = r.reportOn volume (r.files volume) := by
  cases hfailure : r.failure volume with
  | some e => simp [run_of_failure hfailure]
  | none =>
      rw [run_of_no_failure hfailure, ← List.findSome?_eq_none_iff]
      cases (r.files volume).findSome? (r.stop? volume) with
      | some e => simp
      | none => simp [eq_comm]

/-- A run whose files can be found fails because of the first file that stops it. -/
theorem run_eq_error_iff (h : r.failure volume = none) {e : BatchError} :
    r.run volume = .error e ↔
      ∃ before file after, r.files volume = before ++ file :: after ∧
        (∀ earlier ∈ before, r.stop? volume earlier = none) ∧ r.stop? volume file = some e := by
  have hfirst : r.run volume = .error e ↔
      (r.files volume).findSome? (r.stop? volume) = some e := by
    rw [run_of_no_failure h]
    cases (r.files volume).findSome? (r.stop? volume) <;> simp
  rw [hfirst, List.findSome?_eq_some_iff]
  constructor
  · rintro ⟨before, file, after, hfiles, hstop, hbefore⟩
    exact ⟨before, file, after, hfiles, hbefore, hstop⟩
  · rintro ⟨before, file, after, hfiles, hbefore, hstop⟩
    exact ⟨before, file, after, hfiles, hstop, hbefore⟩

theorem exists_run_eq_ok_iff (h : r.failure volume = none) :
    (∃ report, r.run volume = .ok report) ↔
      ∀ file ∈ r.files volume, r.stop? volume file = none := by
  simp only [run_eq_ok_iff, h, true_and, exists_and_left, exists_eq, and_true]

/-- A run passes over no file that it cannot read, whether it keeps going or not. -/
theorem isUnreadable_of_stop?_eq_none {file : Path} (h : r.stop? volume file = none) :
    (volume.content file).isUnreadable = false := by
  rw [stop?] at h
  cases hcontent : volume.content file with
  | tree root => rfl
  | malformed e => rfl
  | unreadable fault =>
      rw [hcontent] at h
      cases hgoing : r.keepGoing <;>
        simp [hgoing, Content.stop?, Content.isMalformed, Content.error?] at h

theorem checked_add_skipped_reportOn {files : List Path}
    (h : ∀ file ∈ files, (volume.content file).isUnreadable = false) :
    (r.reportOn volume files).checked + (r.reportOn volume files).skipped = files.length := by
  induction files with
  | nil => rfl
  | cons file files ih =>
      rw [List.forall_mem_cons] at h
      specialize ih h.2
      cases hcontent : volume.content file with
      | tree root => rw [reportOn_cons_tree volume r hcontent, List.length_cons]; dsimp only; omega
      | malformed e =>
          rw [reportOn_cons_malformed volume r hcontent, List.length_cons]; dsimp only; omega
      | unreadable fault => rw [hcontent] at h; cases h.1

/-! ### Making a runner -/

theorem make_eq_ok_iff {config : Config} {settings : Settings} {rules : List Rule} :
    make volume config settings rules = .ok r ↔
      ∃ root exclude, resolveRoot volume (settings.root.getD config.runner.root) = .ok root ∧
        settings.suffix.getD config.runner.suffix ≠ "" ∧
        (settings.exclude ++ config.runner.exclude).mapM compileExclude = .ok exclude ∧
        { root, exclude,
          suffix := settings.suffix.getD config.runner.suffix
          rules := rules.filter fun rule => config.isEnabled rule.name
          keepGoing := settings.keepGoing.getD config.runner.keepGoing } = r := by
  rw [make]
  cases resolveRoot volume (settings.root.getD config.runner.root) with
  | error e => simp
  | ok root =>
      by_cases hsuffix : settings.suffix.getD config.runner.suffix = ""
      · simp [hsuffix]
      · cases (settings.exclude ++ config.runner.exclude).mapM compileExclude with
        | error e => simp [hsuffix]
        | ok exclude => simp [hsuffix]

end Runner
end Arborist
