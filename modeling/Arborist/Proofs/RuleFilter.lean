import Arborist.Proofs.DisabledRules

/-!
# Rules asked for by name

A filter is a list of names with commas between them.  Its entries are the names without the blanks
around them, and those that name a built-in rule which is not disabled make up the rules of a check,
one for every entry.  What such rules find together is what they find alone, merged by node:
`Rule.reports_eq_mergedByNode`.
-/

namespace Arborist

/-! ### Entries -/

/-- A name as it stands in a filter, with the blanks around it.  The name itself has no comma, and
no blanks at its ends. -/
structure FilterEntry where
  leading : String
  name : String
  trailing : String
  blank_leading : leading.toList.all Text.isBlank = true
  blank_trailing : trailing.toList.all Text.isBlank = true
  no_comma : ',' ∉ name.toList
  first_visible : name.toList.head?.any Text.isBlank = false
  last_visible : name.toList.getLast?.any Text.isBlank = false

namespace Text

theorem dropWhile_isBlank_eq_self {cs : List Char} (h : cs.head?.any isBlank = false) :
    cs.dropWhile isBlank = cs := by
  cases cs with
  | nil => rfl
  | cons c cs =>
      have hc : isBlank c = false := h
      rw [List.dropWhile_cons_of_neg (Bool.eq_false_iff.1 hc)]

/-- Trimming takes away the blanks around a text that neither begins nor ends with one. -/
theorem trim_append {leading name trailing : List Char} (hleading : leading.all isBlank = true)
    (htrailing : trailing.all isBlank = true) (hfirst : name.head?.any isBlank = false)
    (hlast : name.getLast?.any isBlank = false) : trim (leading ++ name ++ trailing) = name := by
  rw [List.all_eq_true] at hleading htrailing
  have hstart : (leading ++ name ++ trailing).dropWhile isBlank =
      (name ++ trailing).dropWhile isBlank := by
    rw [List.append_assoc, List.dropWhile_append_of_pos hleading]
  rw [trim, hstart]
  cases name with
  | nil =>
      rw [List.nil_append, List.dropWhile_eq_nil_iff.2 htrailing]
      rfl
  | cons c cs =>
      have hname : (c :: cs ++ trailing).dropWhile isBlank = c :: cs ++ trailing :=
        dropWhile_isBlank_eq_self hfirst
      have hend : (c :: cs).reverse.dropWhile isBlank = (c :: cs).reverse := by
        refine dropWhile_isBlank_eq_self ?_
        rwa [List.head?_reverse]
      rw [hname, List.reverse_append, List.dropWhile_append_of_pos (by simpa using htrailing), hend,
        List.reverse_reverse]

end Text

namespace FilterEntry

def text (e : FilterEntry) : String := e.leading ++ e.name ++ e.trailing

def spell (entries : List FilterEntry) : String := ",".intercalate (entries.map text)

theorem not_mem_text (e : FilterEntry) : ',' ∉ e.text.toList := by
  have hblank : ∀ cs : List Char, cs.all Text.isBlank = true → ',' ∉ cs :=
    fun cs h hmem => absurd (List.all_eq_true.1 h ',' hmem) (by decide)
  rw [text, String.toList_append, String.toList_append, List.mem_append, List.mem_append,
    not_or, not_or]
  exact ⟨⟨hblank _ e.blank_leading, e.no_comma⟩, hblank _ e.blank_trailing⟩

theorem trim_text (e : FilterEntry) : Text.trim e.text.toList = e.name.toList := by
  rw [text, String.toList_append, String.toList_append]
  exact Text.trim_append e.blank_leading e.blank_trailing e.first_visible e.last_visible

theorem cut_spell {entries : List FilterEntry} (h : entries ≠ []) :
    Text.cut ',' (spell entries).toList = entries.map fun e => e.text.toList := by
  induction entries with
  | nil => exact absurd rfl h
  | cons e entries ih =>
      cases entries with
      | nil =>
          rw [spell, List.map_cons, List.map_nil, String.intercalate_singleton,
            Text.cut_of_not_mem e.not_mem_text]
          rfl
      | cons e' entries =>
          have htext : (spell (e :: e' :: entries)).toList =
              e.text.toList ++ ',' :: (spell (e' :: entries)).toList := by
            rw [spell, List.map_cons, List.map_cons, String.intercalate_cons_cons,
              String.toList_append, String.toList_append, List.append_assoc]
            rfl
          rw [htext, Text.cut_append_cons e.not_mem_text, ih (List.cons_ne_nil _ _)]
          rfl

/-- The names in a filter are those of its entries that have one. -/
theorem filterNames_spell (entries : List FilterEntry) :
    Command.filterNames (spell entries) = (entries.map name).filter fun name => name != "" := by
  cases entries with
  | nil => rfl
  | cons e entries =>
      have hempty : ∀ name : String, (!name.toList.isEmpty) = (name != "") := by
        intro name
        rw [Bool.eq_iff_iff]
        simp
      rw [Command.filterNames, cut_spell (List.cons_ne_nil _ _), List.map_map, List.filter_map,
        List.map_map, List.filter_map]
      simp only [Function.comp_def, trim_text, hempty, String.ofList_toList]

/-- Every text without a comma is an entry. -/
theorem exists_text_eq {cs : List Char} (h : ',' ∉ cs) : ∃ e : FilterEntry, e.text.toList = cs := by
  have hvisible : ∀ cs : List Char, (cs.dropWhile Text.isBlank).head?.any Text.isBlank = false := by
    intro cs
    have hhead := List.head?_dropWhile_not Text.isBlank cs
    cases hfirst : (cs.dropWhile Text.isBlank).head? with
    | none => rfl
    | some c =>
        rw [hfirst] at hhead
        exact hhead
  have hrest :
      Text.trim cs ++ ((cs.dropWhile Text.isBlank).reverse.takeWhile Text.isBlank).reverse =
      cs.dropWhile Text.isBlank := by
    rw [Text.trim, ← List.reverse_append, List.takeWhile_append_dropWhile, List.reverse_reverse]
  have hname : Text.trim cs <+: cs.dropWhile Text.isBlank := ⟨_, hrest⟩
  refine ⟨⟨.ofList (cs.takeWhile Text.isBlank), .ofList (Text.trim cs),
    .ofList ((cs.dropWhile Text.isBlank).reverse.takeWhile Text.isBlank).reverse, ?_, ?_, ?_,
      ?_, ?_⟩, ?_⟩
  · rw [String.toList_ofList, List.all_eq_true]
    exact fun c hc => List.mem_takeWhile_imp hc
  · rw [String.toList_ofList, List.all_eq_true]
    exact fun c hc => List.mem_takeWhile_imp (List.mem_reverse.1 hc)
  · rw [String.toList_ofList]
    exact fun hc => h ((List.dropWhile_suffix _).subset (hname.subset hc))
  · rw [String.toList_ofList]
    cases hfirst : (Text.trim cs).head? with
    | none => rfl
    | some c =>
        have hsome := hvisible cs
        rwa [← hrest, List.head?_append, hfirst, Option.some_or] at hsome
  · rw [String.toList_ofList, Text.trim, List.getLast?_reverse]
    exact hvisible _
  · rw [text, String.toList_append, String.toList_append]
    dsimp only
    rw [String.toList_ofList, String.toList_ofList, String.toList_ofList, List.append_assoc, hrest,
      List.takeWhile_append_dropWhile]

/-- Every text is a filter. -/
theorem exists_spell_eq (filter : String) : ∃ entries, spell entries = filter := by
  have hentries : ∀ pieces : List (List Char), (∀ piece ∈ pieces, ',' ∉ piece) →
      ∃ entries : List FilterEntry, (entries.map fun e => e.text.toList) = pieces := by
    intro pieces
    induction pieces with
    | nil => exact fun _ => ⟨[], rfl⟩
    | cons piece pieces ih =>
        intro h
        obtain ⟨hpiece, h⟩ := List.forall_mem_cons.1 h
        obtain ⟨e, he⟩ := exists_text_eq hpiece
        obtain ⟨entries, hentries⟩ := ih h
        exact ⟨e :: entries, by rw [List.map_cons, he, hentries]⟩
  obtain ⟨entries, hentries⟩ := hentries (Text.cut ',' filter.toList) fun _ =>
    Text.not_mem_of_mem_cut
  refine ⟨entries, String.toList_inj.1 ?_⟩
  rw [spell, String.toList_intercalate, List.map_map]
  exact (congrArg _ hentries).trans (Text.intercalate_cut ',' _)

end FilterEntry

/-! ### Reports node by node -/

def Event.entered? {α : Type} : Event α → Option α
  | .enter a => some a
  | .leave _ => none

theorem Visit.filterMap_entered?_events (root : Node) :
    ((ofRoot root).events fun _ => .descend).filterMap Event.entered? = (ofRoot root).preorder := by
  have htrace : ∀ v : Visit, (Branching.trace (fun _ => .descend) v).filterMap Event.entered? =
      Branching.nodes v := by
    intro v
    induction v using Branching.parts_induction with
    | step v ih =>
        have henter : Event.entered? (.enter v) = some v := rfl
        have hleave : Event.entered? (.leave v) = none := rfl
        rw [@Branching.trace_of_descend Visit _ (fun _ => .descend) v rfl, Branching.nodes_eq,
          List.filterMap_append, List.filterMap_cons_some henter, List.filterMap_cons_none hleave,
          List.filterMap_nil, List.append_nil, List.filterMap_flatMap, List.flatMap_congr ih]
  rw [events_ofRoot, htrace, preorder_ofRoot]

namespace Rule

open Attendee

/-- The reports that `rules` make one by one, node by node and at one node in the order of the
rules. -/
def mergedByNode (rules : List Rule) (root : Node) : List Report :=
  (Visit.ofRoot root).preorder.flatMap fun v =>
    rules.flatMap fun r => (reports [r] root).toList.filter fun report =>
      report.ordinal == v.ordinal

def shareOf (reports : List Report) : Event Visit → List Report
  | .enter v => reports.filter fun report => report.ordinal == v.ordinal
  | .leave _ => []

theorem exists_enter_of_mem_log (b : Builtin) (events : List (Event Visit)) :
    ∀ call ∈ (b.rule.follow events).log, ∀ report ∈ call.reaction.reports,
      ∃ v, call.event = .enter v ∧ report.ordinal = v.ordinal := by
  refine forall_mem_log (P := fun call => ∀ report ∈ call.reaction.reports,
    ∃ v, call.event = .enter v ∧ report.ordinal = v.ordinal) (fun e s state report hreport => ?_) _
  cases e with
  | enter v =>
      obtain ⟨extra, rfl⟩ := b.eq_report_of_mem_enter hreport
      exact ⟨v, rfl, rfl⟩
  | leave v =>
      rw [answer, Builtin.leave_reaction] at hreport
      cases hreport

/-- A node is entered once. -/
theorem pairwise_entered (root : Node) :
    ((Visit.ofRoot root).events fun _ => .descend).Pairwise fun e e' =>
      ∀ v, e = .enter v → ∀ w, e' = .enter w → v.ordinal ≠ w.ordinal := by
  have hpreorder : (Visit.ofRoot root).preorder.Pairwise fun v w => v.ordinal ≠ w.ordinal := by
    rw [← List.pairwise_map (f := Visit.ordinal), map_ordinal_preorder]
    exact List.nodup_range
  rw [← Visit.filterMap_entered?_events, List.pairwise_filterMap] at hpreorder
  refine hpreorder.imp ?_
  rintro e e' h v rfl w rfl
  exact h v rfl w rfl

theorem reports_follow (b : Builtin) (root : Node) :
    (b.rule.follow ((Visit.ofRoot root).events fun _ => .descend)).reports =
      (reports [b.rule] root).toList := by
  have hlength : (b.rule.follow ((Visit.ofRoot root).events fun _ => .descend)).log.length =
      ((Visit.ofRoot root).events fun _ => .descend).length := by
    rw [← List.length_map Call.event]
    exact congrArg List.length (b.rule.events_follow _)
  rw [@toList_reports_eq [b.rule] (unminding_builtins [b]), List.map_cons, List.map_nil, ← hlength,
    inEventOrder_singleton]

/-- Where every call reports on the node it is about, and each node has one call, the reports on a
node are those of its call. -/
theorem reports_eq_filter {calls : List Call}
    (hown : ∀ call ∈ calls, ∀ report ∈ call.reaction.reports, ∃ v, call.event = .enter v ∧
      report.ordinal = v.ordinal)
    (hpairwise : calls.Pairwise fun c c' => ∀ v, c.event = .enter v → ∀ w, c'.event = .enter w →
      v.ordinal ≠ w.ordinal)
    {call : Call} (h : call ∈ calls) {v : Visit} (hv : call.event = .enter v) :
    call.reaction.reports =
      (calls.flatMap fun c => c.reaction.reports).filter fun report =>
        report.ordinal == v.ordinal := by
  induction calls with
  | nil => cases h
  | cons first calls ih =>
      obtain ⟨hfirst, hcalls⟩ := List.forall_mem_cons.1 hown
      obtain ⟨hother, hdistinct⟩ := List.pairwise_cons.1 hpairwise
      rw [List.flatMap_cons, List.filter_append]
      rcases List.mem_cons.1 h with rfl | h
      · have hself : call.reaction.reports.filter (fun report => report.ordinal == v.ordinal) =
            call.reaction.reports := by
          refine List.filter_eq_self.2 fun report hreport => ?_
          obtain ⟨w, hw, hordinal⟩ := hfirst report hreport
          cases hv.symm.trans hw
          exact beq_iff_eq.2 hordinal
        have hrest : (calls.flatMap fun c => c.reaction.reports).filter
            (fun report => report.ordinal == v.ordinal) = [] := by
          refine List.filter_eq_nil_iff.2 fun report hreport => ?_
          obtain ⟨c, hc, hreport⟩ := List.mem_flatMap.1 hreport
          obtain ⟨w, hw, hordinal⟩ := hcalls c hc report hreport
          rw [hordinal, beq_iff_eq]
          exact (hother c hc v hv w hw).symm
        rw [hself, hrest, List.append_nil]
      · have hnone : first.reaction.reports.filter (fun report => report.ordinal == v.ordinal) =
            [] := by
          refine List.filter_eq_nil_iff.2 fun report hreport => ?_
          obtain ⟨w, hw, hordinal⟩ := hfirst report hreport
          rw [hordinal, beq_iff_eq]
          exact hother call h w hw v hv
        rw [hnone, List.nil_append]
        exact ih hcalls hdistinct h

/-- At every event a built-in rule makes those of its reports that are about the node. -/
theorem reports_reactionAt_follow (b : Builtin) (root : Node) (k : Nat) :
    ((b.rule.follow ((Visit.ofRoot root).events fun _ => .descend)).reactionAt k).reports =
      (((Visit.ofRoot root).events fun _ => .descend)[k]?.map
        (shareOf (reports [b.rule] root).toList)).getD [] := by
  have hown := exists_enter_of_mem_log b ((Visit.ofRoot root).events fun _ => .descend)
  have hpairwise := pairwise_entered root
  have hevents := b.rule.events_follow ((Visit.ofRoot root).events fun _ => .descend)
  rw [← reports_follow, Attendee.reports, reactionAt]
  rw [← hevents, Attendee.events, List.pairwise_map] at hpairwise
  generalize ((Visit.ofRoot root).events fun _ => .descend) = events at *
  have hlog : events[k]? = (b.rule.follow events).log[k]?.map Call.event := by
    rw [← List.getElem?_map]
    exact congrArg (·[k]?) hevents.symm
  rw [hlog]
  cases hcall : (b.rule.follow events).log[k]? with
  | none => rfl
  | some call =>
      have hmem := List.mem_of_getElem? hcall
      rw [Option.map_some, Option.map_some, Option.map_some, Option.getD_some, Option.getD_some]
      cases hevent : call.event with
      | enter v => exact reports_eq_filter hown hpairwise hmem hevent
      | leave v =>
          refine List.eq_nil_iff_forall_not_mem.2 fun report hreport => ?_
          obtain ⟨w, hw, -⟩ := hown call hmem report hreport
          cases hevent.symm.trans hw

theorem flatMap_range_getElem? {α β : Type} (l : List α) (f : α → List β) :
    ((List.range l.length).flatMap fun k => (l[k]?.map f).getD []) = l.flatMap f := by
  induction l with
  | nil => rfl
  | cons a l ih =>
      rw [List.length_cons, List.range_succ_eq_map, List.flatMap_cons, List.flatMap_map,
        List.flatMap_cons, ← ih]
      rfl

theorem flatMap_shareOf (solo : Builtin → List Report) (bs : List Builtin)
    (events : List (Event Visit)) :
    (events.flatMap fun e => bs.flatMap fun b => shareOf (solo b) e) =
      (events.filterMap Event.entered?).flatMap fun v =>
        bs.flatMap fun b => (solo b).filter fun report => report.ordinal == v.ordinal := by
  induction events with
  | nil => rfl
  | cons e events ih =>
      rw [List.flatMap_cons, ih]
      cases e with
      | enter v => rfl
      | leave v =>
          have hnone : (bs.flatMap fun b => shareOf (solo b) (.leave v)) = [] :=
            List.flatMap_eq_nil_iff.2 fun _ _ => rfl
          rw [hnone]
          rfl

/-- Built-in rules that share a pass make the reports that they make one by one, node by node. -/
theorem reports_eq_mergedByNode (bs : List Builtin) (root : Node) :
    (reports (bs.map Builtin.rule) root).toList = mergedByNode (bs.map Builtin.rule) root := by
  rw [toList_reports_eq (unminding_builtins bs), mergedByNode, ← Visit.filterMap_entered?_events,
    inEventOrder]
  simp only [List.flatMap_map, reports_reactionAt_follow]
  generalize ((Visit.ofRoot root).events fun _ => .descend) = events
  have hshare :
      (fun k : Nat => bs.flatMap fun b =>
        (events[k]?.map (shareOf (reports [b.rule] root).toList)).getD []) =
      fun k => (events[k]?.map fun e => bs.flatMap fun b =>
          shareOf (reports [b.rule] root).toList e).getD [] := by
    funext k
    cases events[k]? with
    | none => exact List.flatMap_eq_nil_iff.2 fun _ _ => rfl
    | some e => rfl
  rw [hshare, flatMap_range_getElem?, flatMap_shareOf]

end Rule

/-! ### The rules of a filter -/

namespace Config

def callees (c : Config) (name : String) : List String :=
  (c.rule? name).elim Rule.Eval.defaultCallees RuleConfig.callees

def admits (c : Config) (name : String) : Bool := Builtin.names.contains name && c.isEnabled name

/-- The rules that are asked for by name, one for every time.  Names that the configuration does not
admit (`admits`) ask for nothing. -/
def asked (c : Config) (names : List String) : List Builtin :=
  (names.filter c.admits).filterMap c.builtin?

variable {c : Config}

theorem builtin?_eq (c : Config) (name : String) :
    c.builtin? name = Builtin.ofName? name (c.callees name) := by
  rw [builtin?, callees]
  cases c.rule? name with
  | none => exact (Builtin.ofName?_defaultCallees name).symm
  | some r => rfl

theorem callees_ne_nil (c : Config) (name : String) : c.callees name ≠ [] := by
  rw [callees]
  cases c.rule? name with
  | none => exact List.cons_ne_nil _ _
  | some r =>
      rw [Option.elim_some, RuleConfig.callees]
      split
      next => exact List.cons_ne_nil _ _
      next hsome => exact fun h => absurd (List.isEmpty_iff.2 h) hsome

theorem builtin?_name {b : Builtin} (h : ∀ callees, b = .eval callees →
    callees = c.callees b.name) :
    c.builtin? b.name = some b := by
  rw [builtin?_eq]
  cases b with
  | newArray => rfl
  | debugger => rfl
  | awaitInLoop => rfl
  | eval callees =>
      have hcallees : ∀ cs : List String, Builtin.ofName? "no-eval" cs =
          some (.eval (if cs.isEmpty then Rule.Eval.defaultCallees else cs)) := fun _ => rfl
      refine (hcallees _).trans ?_
      rw [if_neg (mt List.isEmpty_iff.1 (c.callees_ne_nil _)), ← h callees rfl]

/-- A rule has its options from the configuration. -/
theorem builtin?_eq_some_iff {name : String} {b : Builtin} :
    c.builtin? name = some b ↔ b.name = name ∧ ∀ callees, b = .eval callees →
      callees = c.callees name := by
  constructor
  · intro h
    have hname := Builtin.name_of_ofName? h
    refine ⟨hname, ?_⟩
    rintro callees rfl
    have heval := builtin?_name (c := c) (b := .eval (c.callees "no-eval"))
        (by rintro callees ⟨⟩; rfl)
    subst hname
    exact Builtin.eval.inj (Option.some.inj (h.symm.trans heval))
  · rintro ⟨rfl, h⟩
    exact builtin?_name h

theorem isSome_builtin? (c : Config) (name : String) :
    (c.builtin? name).isSome = Builtin.names.contains name := by
  rw [Bool.eq_iff_iff, builtin?_eq, Builtin.ofName?, Option.isSome_map, List.find?_isSome,
    List.contains_iff_mem, Builtin.names, List.mem_map]
  simp only [beq_iff_eq]

/-- The rules asked for are those that are left when the disabled ones are dropped. -/
theorem asked_eq (c : Config) (names : List String) :
    c.asked names = (names.filterMap c.builtin?).filter fun b => c.isEnabled b.name := by
  rw [asked]
  induction names with
  | nil => rfl
  | cons name names ih =>
      have hadmits : c.admits name = ((c.builtin? name).isSome && c.isEnabled name) :=
        by rw [admits, isSome_builtin?]
      rw [List.filter_cons, hadmits]
      cases hname : c.builtin? name with
      | none =>
          rw [List.filterMap_cons_none hname, ← ih]
          rfl
      | some b =>
          rw [List.filterMap_cons_some hname, List.filter_cons, Builtin.name_of_ofName? hname, ← ih,
            Option.isSome_some, Bool.true_and]
          split
          · rw [List.filterMap_cons_some hname]
          · rfl

/-- Only what a configuration says of built-in rules matters to the rules asked for. -/
theorem asked_congr {c c' : Config} {names names' : List String}
    (h : ∀ name ∈ Builtin.names, c'.isEnabled name = c.isEnabled name ∧
      c'.callees name = c.callees name)
    (hnames : names'.filter c.admits = names.filter c.admits) :
    c'.asked names' = c.asked names := by
  have hadmits : c'.admits = c.admits := by
    funext name
    rw [admits, admits]
    by_cases hname : name ∈ Builtin.names
    · rw [(h name hname).1]
    · rw [List.contains_eq_mem, decide_eq_false hname, Bool.false_and, Bool.false_and]
  rw [asked, asked, hadmits, hnames]
  refine List.filterMap_congr fun name hname => ?_
  have hmem : name ∈ Builtin.names := by
    have hadmits := (List.mem_filter.1 hname).2
    rw [admits, Bool.and_eq_true] at hadmits
    exact List.contains_iff_mem.1 hadmits.1
  rw [builtin?_eq, builtin?_eq, (h name hmem).2]

end Config

/-! ### Checks with a filter -/

/-- What rules find alone in a file, merged by node as in `mergedByNode`. -/
def Content.merged (bs : List Builtin) (source : String) : Content → List Finding
  | .tree root => (Rule.mergedByNode (bs.map Builtin.rule) root).map (Finding.ofReport source)
  | _ => []

theorem Content.findings_eq_merged (bs : List Builtin) (source : String) (content : Content) :
    content.findings (bs.map Builtin.rule) source = content.merged bs source := by
  cases content with
  | tree root => rw [findings, merged, Rule.reports_eq_mergedByNode]
  | malformed e => rfl
  | unreadable fault => rfl

namespace Command.CheckOptions

variable {o : CheckOptions} {s : Session} {config : Config}

def filtered (o : CheckOptions) (entries : List FilterEntry) : CheckOptions :=
  { o with rules := some (FilterEntry.spell entries) }

theorem builtins_filtered (o : CheckOptions) (config : Config) (entries : List FilterEntry) :
    (o.filtered entries).builtins config =
      (entries.map FilterEntry.name).filterMap config.builtin? := by
  have hempty : config.builtin? "" = none := by
    refine Option.not_isSome_iff_eq_none.1 ?_
    rw [Config.isSome_builtin?]
    decide
  have hbuiltins : (o.filtered entries).builtins config =
      (filterNames (FilterEntry.spell entries)).filterMap config.builtin? := rfl
  rw [hbuiltins, FilterEntry.filterNames_spell, List.filterMap_filter]
  refine List.filterMap_congr fun name _ => ?_
  by_cases hname : name = ""
  · rw [hname, hempty]
    rfl
  · rw [if_pos (bne_iff_ne.2 hname)]

/-- The runner of a filter differs from that of no rules in its rules only. -/
theorem runner_filtered (o : CheckOptions) (s : Session) (config : Config)
    (entries : List FilterEntry) :
    (o.filtered entries).runner s config = (Runner.make s.volume config o.settings []).map fun r =>
      { r with rules := (config.asked (entries.map FilterEntry.name)).map Builtin.rule } := by
  rw [runner, builtins_filtered, Runner.make_eq_map_rules, Config.asked_eq, List.filter_map]
  rfl

/-- A check with a filter finds, file by file, what the rules asked for find alone. -/
theorem checkUnder_filtered_eq_ok_iff {entries : List FilterEntry} {report : BatchReport} :
    ((o.filtered entries).checkUnder s config).2 = .ok report ↔
      ∃ r files, Runner.make s.volume config o.settings [] = .ok r ∧
        r.discover s.volume = .ok files ∧ (∀ file ∈ files, r.stop? s.volume file = none) ∧
        report =
          { results := files.flatMap fun file => (s.volume.content file).merged
              (config.asked (entries.map FilterEntry.name)) (r.sourceOf file)
            checked := files.countP fun file => (s.volume.content file).isGood
            skipped := files.countP fun file => (s.volume.content file).isMalformed } := by
  have hrunner := runner_filtered o s config entries
  cases hmake : Runner.make s.volume config o.settings [] with
  | error e =>
      rw [hmake] at hrunner
      rw [result_of_runner_error hrunner]
      constructor
      · intro h
        cases h
      · rintro ⟨r, files, hr, -⟩
        cases hr
  | ok r =>
      rw [hmake] at hrunner
      have hfindings : Runner.findings s.volume
          { r with rules := (config.asked (entries.map FilterEntry.name)).map Builtin.rule } =
              fun file =>
            (s.volume.content file).merged (config.asked (entries.map FilterEntry.name))
              (r.sourceOf file) :=
        funext fun file => Content.findings_eq_merged _ _ _
      have hok : ∀ x : Except BatchError BatchReport, x.mapError Failure.run = .ok report ↔
          x = .ok report := by
        intro x
        cases x <;> simp [Except.mapError]
      rw [result_of_runner hrunner, hok, Runner.run_eq_ok_iff, Runner.reportOn, hfindings]
      constructor
      · rintro ⟨hfailure, hpass, hreport⟩
        exact ⟨r, _, rfl, Runner.discover_eq_ok_iff.2 ⟨hfailure, rfl⟩, hpass, hreport⟩
      · rintro ⟨r', files, hr, hfiles, hpass, hreport⟩
        cases hr
        obtain ⟨hfailure, rfl⟩ := Runner.discover_eq_ok_iff.1 hfiles
        exact ⟨hfailure, hpass, hreport⟩

/-- The result of a check with a filter depends on nothing but the settings and the rules asked
for. -/
theorem checkUnder_filtered_congr {entries entries' : List FilterEntry} {config' : Config}
    (hconfig : config'.runner = config.runner)
    (hasked : config'.asked (entries'.map FilterEntry.name) =
      config.asked (entries.map FilterEntry.name)) :
    ((o.filtered entries').checkUnder s config').2 =
      ((o.filtered entries).checkUnder s config).2 := by
  have hmake : Runner.make s.volume config' o.settings [] =
      Runner.make s.volume config o.settings [] := by
    rw [Runner.make, Runner.make, hconfig]
    rfl
  have hrunner : (o.filtered entries').runner s config' = (o.filtered entries).runner s config := by
    rw [runner_filtered, runner_filtered, hmake, hasked]
  cases h : (o.filtered entries).runner s config with
  | error e => rw [result_of_runner_error h, result_of_runner_error (hrunner.trans h)]
  | ok r => rw [result_of_runner h, result_of_runner (hrunner.trans h)]

/-- Every text is a filter, with entries that are names between blanks.  A check with it finds in
every file what the rules of its entries find alone, merged by node and at one node in the order of
the entries.  An entry counts as often as it stands there if it is the name of a built-in rule that
is not disabled, and the rule has its options from the configuration.  Nothing else about the filter
or the rules in the configuration matters. -/
theorem filter_merges_solo_findings (o : CheckOptions) (s : Session) (config : Config) :
    (∀ filter, ∃ entries, o.filtered entries = { o with rules := some filter }) ∧
    (∀ name b, config.builtin? name = some b ↔
      b.name = name ∧ ∀ callees, b = .eval callees → callees = config.callees name) ∧
    ∀ entries,
      (∀ report, ((o.filtered entries).checkUnder s config).2 = .ok report ↔
        ∃ r files, Runner.make s.volume config o.settings [] = .ok r ∧
          r.discover s.volume = .ok files ∧ (∀ file ∈ files, r.stop? s.volume file = none) ∧
          report =
            { results := files.flatMap fun file => (s.volume.content file).merged
                (config.asked (entries.map FilterEntry.name)) (r.sourceOf file)
              checked := files.countP fun file => (s.volume.content file).isGood
              skipped := files.countP fun file => (s.volume.content file).isMalformed }) ∧
      (∀ entries' config', config'.runner = config.runner →
        (∀ name ∈ Builtin.names, config'.isEnabled name = config.isEnabled name ∧
          config'.callees name = config.callees name) →
        (entries'.map FilterEntry.name).filter config.admits =
        (entries.map FilterEntry.name).filter config.admits →
        ((o.filtered entries').checkUnder s config').2 =
          ((o.filtered entries).checkUnder s config).2) ∧
      ∀ explicit, ((o.filtered entries).origin s explicit).load s.volume = .ok config →
        ((o.filtered entries).check s explicit).2 =
        ((o.filtered entries).checkUnder s config).2 := by
  refine ⟨fun filter => ?_, fun name b => Config.builtin?_eq_some_iff, fun entries =>
    ⟨fun report => checkUnder_filtered_eq_ok_iff, fun entries' config' hconfig hrules hnames => ?_,
      fun explicit hload => result_of_load hload⟩⟩
  · obtain ⟨entries, rfl⟩ := FilterEntry.exists_spell_eq filter
    exact ⟨entries, rfl⟩
  · exact checkUnder_filtered_congr hconfig (Config.asked_congr hrules hnames)

/-- A rule twice, with blanks, nothing and an unknown name between. -/
def looseFilter : List FilterEntry :=
  [⟨" ", "no-debugger", "", by decide, by decide, by decide, by decide, by decide⟩,
    ⟨"", "", "", by decide, by decide, by decide, by decide, by decide⟩,
    ⟨"\t", "nope", " ", by decide, by decide, by decide, by decide, by decide⟩,
    ⟨"", "no-debugger", "", by decide, by decide, by decide, by decide, by decide⟩]

def tightFilter : List FilterEntry :=
  [⟨"", "no-debugger", "", by decide, by decide, by decide, by decide, by decide⟩,
    ⟨"", "no-debugger", "", by decide, by decide, by decide, by decide, by decide⟩]

theorem checkIds_debugger_twice :
    (Rule.mergedByNode ([Builtin.debugger, .debugger].map Builtin.rule)
      (.ofKind .debuggerStatement)).map Report.checkId =
      ["no-debugger", "no-debugger"] := by
  rw [← Rule.reports_eq_mergedByNode, Rule.reports, Rule.reportInto, Rule.run_ofKind]
  rfl

theorem exists_make_loudConfig :
    ∃ r, Runner.make configuredTree loudConfig configuredOptions.settings [] = .ok r ∧
    { r with rules := loudRunner.rules } = loudRunner := by
  have hrunner := runner_loudConfig
  rw [runner, Runner.make_eq_map_rules] at hrunner
  cases hr : Runner.make configuredSession.volume loudConfig configuredOptions.settings [] with
  | error e =>
      rw [hr] at hrunner
      cases hrunner
  | ok r =>
      rw [hr] at hrunner
      exact ⟨r, hr, by rw [← Except.ok.inj hrunner]⟩

theorem filter_merges_solo_findings_configuredTree :
    (configuredOptions.filtered looseFilter).rules = some " no-debugger,,\tnope ,no-debugger" ∧
    (configuredOptions.filtered tightFilter).rules = some "no-debugger,no-debugger" ∧
    ∃ report, ((configuredOptions.filtered looseFilter).checkUnder configuredSession loudConfig).2 =
      .ok report ∧
      report.results.map Finding.checkId = ["no-debugger", "no-debugger"] ∧
      ((configuredOptions.filtered tightFilter).checkUnder configuredSession
        { loudConfig with preset := some "all", rules := [] }).2 = .ok report := by
  obtain ⟨-, -, hentries⟩ :=
    filter_merges_solo_findings configuredOptions configuredSession loudConfig
  obtain ⟨hreport, hsame, -⟩ := hentries looseFilter
  obtain ⟨r, hmake, hfull⟩ := exists_make_loudConfig
  have hfiles : r.discover configuredTree = .ok (["/t/a.ast.json"] : List Path) := by
    rw [← discover_configuredTree, ← hfull]
    rfl
  have hasked : loudConfig.asked (looseFilter.map FilterEntry.name) =
      [.debugger, .debugger] := by decide
  have hok := (hreport _).2 ⟨r, _, hmake, hfiles, ?_, rfl⟩
  · refine ⟨by decide +kernel, by decide +kernel, _, hok, ?_, ?_⟩
    · dsimp only [configuredSession]
      rw [List.flatMap_singleton, content_configuredTree, hasked, Content.merged, List.map_map]
      exact checkIds_debugger_twice
    · refine (hsame tightFilter _ rfl ?_ (by decide)).trans hok
      decide
  · dsimp only [configuredSession]
    rw [List.forall_mem_singleton, Runner.stop?, content_configuredTree]
    cases r.keepGoing <;> rfl

end Command.CheckOptions
end Arborist
