import Arborist.Command.Output
import Arborist.Proofs.JsonReader
import Arborist.Proofs.JsonWriter
import Mathlib.Data.Option.Basic

/-!
# Findings as JSON

A report is printed as a JSON text, and from that text its findings can be read again
(`BatchReport.readFindings_print`).  What the text says of a finding is `Finding.Described`: the
members of an object, in whatever order, of which some are there only if the finding has something
to say under their names.
-/

namespace Arborist

/-! ### What can be printed without loss -/

structure Point.Fits (p : Point) : Prop where
  line : p.line < 2 ^ 32
  column : ∀ c ∈ p.column, c < 2 ^ 32

/-- A finding whose lines and columns have 32 bits, and without any doubles in its attachment, which
could be printed as other doubles. -/
structure Finding.Exact (f : Finding) : Prop where
  start : ∀ p ∈ f.start, p.Fits
  stop : ∀ p ∈ f.stop, p.Fits
  extra : ∀ e ∈ f.extra, e.WellFormed ∧ e.Integral

/-! ### What is said of a finding -/

structure Point.Described (p : Point) (members : Members Json) : Prop where
  line : Members.find? members "line" = some (.ofNat p.line)
  column : Members.find? members "col" = p.column.map .ofNat
  others : ∀ name ∉ ["line", "col"], Members.find? members name = none

/-- What the members of an object say of the finding.  The name and the path are always there, the
other three only if the finding has them, and there is nothing else. -/
structure Finding.Described (f : Finding) (members : Members Json) : Prop where
  checkId : Members.find? members "check_id" = some (.string f.checkId)
  path : Members.find? members "path" = some (.string f.path)
  start : Option.Rel (fun p v => ∃ ms, v = .object ms ∧ p.Described ms) f.start
    (Members.find? members "start")
  stop : Option.Rel (fun p v => ∃ ms, v = .object ms ∧ p.Described ms) f.stop
    (Members.find? members "end")
  extra : Members.find? members "extra" = f.extra
  others : ∀ name ∉ ["check_id", "path", "start", "end", "extra"], Members.find? members name = none

/-! ### Reading findings -/

namespace Json

def nat? : Json → Option Nat
  | .number (.integer (.ofNat n)) => some n
  | _ => none

def optional? {α : Type} (decode : Json → Option α) : Option Json → Option (Option α)
  | none => some none
  | some v => (decode v).map some

end Json

def Point.ofJson? (v : Json) : Option Point := do
  return ⟨← (v.get? "line").bind Json.nat?, ← Json.optional? Json.nat? (v.get? "col")⟩

def Finding.ofJson? (v : Json) : Option Finding := do
  return {
    checkId := ← (v.get? "check_id").bind Json.string?
    path := ← (v.get? "path").bind Json.string?
    start := ← Json.optional? Point.ofJson? (v.get? "start")
    stop := ← Json.optional? Point.ofJson? (v.get? "end")
    extra := v.get? "extra" }

def readFindings (text : String) : Option (List Finding) :=
  match Json.parse text with
  | .error _ => none
  | .ok v =>
    match v.get? "results" with
    | some (.array items) => items.mapM Finding.ofJson?
    | _ => none

theorem Point.Described.ofJson?_eq {p : Point} {members : Members Json} (h : p.Described members) :
    Point.ofJson? (.object members) = some p := by
  obtain ⟨line, column⟩ := p
  have hcolumn : Json.optional? Json.nat? (Members.find? members "col") = some column := by
    rw [h.column]
    cases column <;> rfl
  simp only [ofJson?, Json.get?, h.line, hcolumn]
  rfl

theorem optional?_ofJson?_eq {p : Option Point} {v : Option Json}
    (h : Option.Rel (fun p v => ∃ ms, v = Json.object ms ∧ p.Described ms) p v) :
    Json.optional? Point.ofJson? v = some p := by
  cases h with
  | none => rfl
  | some hp =>
      obtain ⟨ms, rfl, hp⟩ := hp
      rw [Json.optional?, hp.ofJson?_eq]
      rfl

theorem Finding.Described.ofJson?_eq {f : Finding} {members : Members Json}
    (h : f.Described members) :
    Finding.ofJson? (.object members) = some f := by
  simp only [ofJson?, Json.get?, h.checkId, h.path, h.extra, optional?_ofJson?_eq h.start,
    optional?_ofJson?_eq h.stop]
  rfl

/-! ### The members of a finding -/

namespace Members

variable {α : Type} {entries : Members α}

theorem find?_eq_some_iff (h : (entries.map Prod.fst).Nodup) {name : String} {value : α} :
    find? entries name = some value ↔ (name, value) ∈ entries := by
  refine ⟨mem_of_find?, fun hmem => ?_⟩
  have hfind : List.find? (fun m => m.1 == name) entries = some (name, value) :=
    (find?_eq_some_iff_mem h).2 ⟨hmem, rfl⟩
  rw [find?_eq_map, hfind]
  rfl

/-- If no name is used twice, then putting the entries in order changes nothing for those who look
up names. -/
theorem find?_ofList_of_nodup (h : (entries.map Prod.fst).Nodup) (name : String) :
    find? (ofList entries) name = find? entries name := by
  ext value
  rw [find?_eq_some_iff (sorted_ofList entries).nodup_names, find?_eq_some_iff h,
    (ofList_perm h).mem_iff]

end Members

namespace Finding

theorem find?_member {α : Type} (name : String) (encode : α → Json) (value : Option α)
    (other : String) :
    Members.find? (member name encode value) other =
      if other = name then value.map encode else none := by
  cases value with
  | none => simp [member, Members.find?_nil]
  | some a => simp [member, Members.find?_cons, Members.find?_nil]

theorem map_sorted_member {α : Type} (name : String) (encode : α → Json) (value : Option α) :
    ((member name encode value).map fun m => (m.1, m.2.sorted)) =
      member name (fun a => (encode a).sorted) value := by
  cases value <;> rfl

def pointMembers (p : Point) : Members Json :=
  ("line", .ofNat p.line) :: member "col" .ofNat p.column

theorem sorted_pointJson (p : Point) :
    (pointJson p).sorted = .object (Members.ofList (pointMembers p)) := by
  obtain ⟨line, column⟩ := p
  cases column <;> simp [pointJson, pointMembers, member, Json.sorted_object, Json.ofNat,
    Json.ofInt, Json.sorted_number]

theorem described_pointMembers (p : Point) : p.Described (Members.ofList (pointMembers p)) := by
  have hnodup : ((pointMembers p).map Prod.fst).Nodup := by
    obtain ⟨line, column⟩ := p
    cases column <;> simp [pointMembers, member]
  have hfind : ∀ name, Members.find? (Members.ofList (pointMembers p)) name =
      if name = "line" then some (.ofNat p.line) else if name = "col" then p.column.map .ofNat
      else none := by
    intro name
    rw [Members.find?_ofList_of_nodup hnodup, pointMembers, Members.find?_cons, find?_member]
    simp
  refine ⟨by rw [hfind]; rfl, by rw [hfind]; rfl, fun name hname => ?_⟩
  simp only [List.mem_cons, List.not_mem_nil, or_false, not_or] at hname
  rw [hfind, if_neg hname.1, if_neg hname.2]

def members (f : Finding) : Members Json :=
  [("check_id", .string f.checkId), ("path", .string f.path)]
    ++ member "start" (fun p => (pointJson p).sorted) f.start ++ member "end"
      (fun p => (pointJson p).sorted) f.stop
    ++ member "extra" Json.sorted f.extra

theorem sorted_toJson (f : Finding) : f.toJson.sorted = .object (Members.ofList f.members) := by
  rw [toJson, Json.sorted_object, members]
  simp only [List.map_append, map_sorted_member, List.map_cons, List.map_nil, Json.sorted_string]
  rfl

theorem find?_members (f : Finding) (name : String) :
    Members.find? (Members.ofList f.members) name =
      if name = "check_id" then some (.string f.checkId)
      else if name = "path" then some (.string f.path)
      else if name = "start" then f.start.map fun p => (pointJson p).sorted
      else if name = "end" then f.stop.map fun p => (pointJson p).sorted
      else if name = "extra" then f.extra.map Json.sorted
      else none := by
  have hnodup : (f.members.map Prod.fst).Nodup := by
    obtain ⟨checkId, path, start, stop, extra⟩ := f
    cases start <;> cases stop <;> cases extra <;> simp [members, member]
  rw [Members.find?_ofList_of_nodup hnodup, members]
  simp only [Members.find?_append, find?_member, Members.find?_cons, Members.find?_nil]
  by_cases h₁ : name = "check_id"
  · simp [h₁]
  by_cases h₂ : name = "path"
  · simp [h₂]
  by_cases h₃ : name = "start"
  · simp [h₃]
  by_cases h₄ : name = "end"
  · simp [h₄]
  simp [h₁, h₂, h₃, h₄]

theorem rel_described_points (p : Option Point) :
    Option.Rel (fun p v => ∃ ms, v = Json.object ms ∧ p.Described ms) p
      (p.map fun p => (pointJson p).sorted) := by
  cases p with
  | none => exact .none
  | some p => exact .some ⟨_, sorted_pointJson p, described_pointMembers p⟩

theorem described_members {f : Finding} (h : f.Exact) : f.Described (Members.ofList f.members) := by
  have hextra : f.extra.map Json.sorted = f.extra := by
    cases hf : f.extra with
    | none => rfl
    | some e => rw [Option.map_some, (h.extra e hf).1.sorted_eq]
  refine ⟨by rw [find?_members]; rfl, by rw [find?_members]; rfl, ?_, ?_, ?_, fun name hname => ?_⟩
  · rw [find?_members]
    exact rel_described_points f.start
  · rw [find?_members]
    exact rel_described_points f.stop
  · rw [find?_members]
    exact hextra
  · simp only [List.mem_cons, List.not_mem_nil, or_false, not_or] at hname
    obtain ⟨h₁, h₂, h₃, h₄, h₅⟩ := hname
    rw [find?_members, if_neg h₁, if_neg h₂, if_neg h₃, if_neg h₄, if_neg h₅]

/-! ### Doubles do not come in -/

theorem integral_ofNat {n : Nat} (h : n < 2 ^ 32) : (Json.ofNat n).Integral :=
  .number (by omega) (by omega)

theorem integral_pointJson {p : Point} (h : p.Fits) : (pointJson p).Integral := by
  obtain ⟨line, column⟩ := p
  refine .object fun m hm => ?_
  rcases List.mem_cons.1 hm with rfl | hm
  · exact integral_ofNat h.line
  · cases column with
    | none => cases hm
    | some c =>
        rw [List.mem_singleton.1 hm]
        exact integral_ofNat (h.column c rfl)

theorem integral_of_mem_member {α : Type} {name : String} {encode : α → Json} {value : Option α}
    (h : ∀ a ∈ value, (encode a).Integral) : ∀ m ∈ member name encode value, m.2.Integral := by
  intro m hm
  cases value with
  | none => cases hm
  | some a =>
      rw [List.mem_singleton.1 hm]
      exact h a rfl

theorem integral_toJson {f : Finding} (h : f.Exact) : f.toJson.Integral := by
  refine .object ?_
  simp only [List.forall_mem_append, List.forall_mem_cons, List.not_mem_nil, false_imp_iff,
    implies_true, and_true]
  refine ⟨⟨⟨⟨.string _, .string _⟩, ?_⟩, ?_⟩, ?_⟩
  · exact integral_of_mem_member fun p hp => integral_pointJson (h.start p hp)
  · exact integral_of_mem_member fun p hp => integral_pointJson (h.stop p hp)
  · exact integral_of_mem_member fun e he => (h.extra e he).2

end Finding

/-! ### Printed reports -/

namespace BatchReport

theorem sorted_toJson (r : BatchReport) :
    r.toJson.sorted =
      .object [("results",
      .array (r.results.map fun f => .object (Members.ofList f.members)))] := by
  have hone : ∀ v : Json, Members.ofList [("results", v)] = [("results", v)] := fun v =>
    Members.ofList_eq_of_perm (.refl _) (List.pairwise_singleton _ _)
  rw [toJson, Json.sorted_object, List.map_cons, List.map_nil, Json.sorted_array, hone,
    List.map_map]
  simp only [Function.comp_def, Finding.sorted_toJson]

theorem integral_toJson {r : BatchReport} (h : ∀ f ∈ r.results, f.Exact) : r.toJson.Integral := by
  refine .object (List.forall_mem_singleton.2 (.array fun v hv => ?_))
  obtain ⟨f, hf, rfl⟩ := List.mem_map.1 hv
  exact Finding.integral_toJson (h f hf)

/-- What is printed is a JSON text with the end of a line behind it. -/
theorem parse_print {r : BatchReport} (h : ∀ f ∈ r.results, f.Exact) :
    Json.parse (Command.OutputFormat.json.print r) =
      .ok (.object
        [("results", .array (r.results.map fun f => .object (Members.ofList f.members)))]) := by
  have hwritten := Json.written_of_render Json.TextLayout.plain_indented (integral_toJson h)
  have hrenders : r.toJson.sorted.Renders (Command.OutputFormat.json.print r).toList := by
    refine ⟨⟨[], r.toJson.sorted, r.toJson.pretty.toList, ['\n'], Json.blank_nil, by decide⟩, rfl,
      hwritten, ?_⟩
    simp [Command.OutputFormat.print, Text.lines, Json.ItemText.padded]
  rw [Json.parse, Json.readAll_eq_ok_iff.2 hrenders, sorted_toJson]

theorem readFindings_print {r : BatchReport} (h : ∀ f ∈ r.results, f.Exact) :
    readFindings (Command.OutputFormat.json.print r) = some r.results := by
  have hread : ∀ fs : List Finding, (∀ f ∈ fs, f.Exact) →
      (fs.map fun f => Json.object (Members.ofList f.members)).mapM Finding.ofJson? = some fs := by
    intro fs
    induction fs with
    | nil => intro _; rfl
    | cons f fs ih =>
        intro hfs
        obtain ⟨hf, hfs⟩ := List.forall_mem_cons.1 hfs
        rw [List.map_cons, List.mapM_cons, (Finding.described_members hf).ofJson?_eq, ih hfs]
        rfl
  rw [readFindings, parse_print h]
  exact hread r.results h

end BatchReport

/-- A report without doubles is printed as a text that parses to an object with its results and
nothing else: one object for every finding, in order, which says of it what there is to say.  So the
findings can be read from the text, and reports with different findings are printed as different
texts. -/
theorem json_output_is_lossless {r : BatchReport} (h : ∀ f ∈ r.results, f.Exact) :
    (∃ objects : List (Members Json),
      Json.parse (Command.OutputFormat.json.print r) =
        .ok (.object [("results", .array (objects.map .object))]) ∧
      List.Forall₂ Finding.Described r.results objects) ∧
    readFindings (Command.OutputFormat.json.print r) = some r.results ∧
    ∀ r' : BatchReport, (∀ f ∈ r'.results, f.Exact) →
      Command.OutputFormat.json.print r = Command.OutputFormat.json.print r' →
        r.results = r'.results := by
  refine ⟨⟨r.results.map fun f => Members.ofList f.members, ?_, ?_⟩,
    BatchReport.readFindings_print h, fun r' h' heq => ?_⟩
  · rw [BatchReport.parse_print h, List.map_map]
    rfl
  · rw [List.forall₂_map_right_iff]
    exact List.forall₂_same.2 fun f hf => Finding.described_members (h f hf)
  · have hread := BatchReport.readFindings_print h
    rw [heq, BatchReport.readFindings_print h'] at hread
    exact (Option.some.inj hread).symm

/-- A finding with characters that have to be escaped, with half a place, and with an attachment
that has empty parts. -/
def oddFinding : Finding :=
  ⟨"no-\"eval\"", "a\\b\n😀\x00", some ⟨4294967295, none⟩, none,
    some (.object [("at", .array []), ("in", .object []),
      ("n", .number (.integer (-9223372036854775808)))])⟩

def endFinding (extra : Option Json) : Finding := ⟨"", "", none, some ⟨2, some 0⟩, extra⟩

theorem exact_oddFinding : oddFinding.Exact where
  start p hp := by
    cases hp
    exact ⟨by decide, nofun⟩
  stop := nofun
  extra e he := by
    cases he
    refine ⟨.object (show ["at", "in", "n"].Pairwise (· < ·) by decide) ?_, .object ?_⟩
    · simp only [List.forall_mem_cons, List.not_mem_nil, false_imp_iff, implies_true, and_true]
      exact ⟨.array nofun, .object .nil nofun, .number _⟩
    · simp only [List.forall_mem_cons, List.not_mem_nil, false_imp_iff, implies_true, and_true]
      exact ⟨.array nofun, .object nofun, .number (by decide) (by decide)⟩

theorem exact_endFinding {extra : Option Json} (h : ∀ e ∈ extra, e = .null) :
    (endFinding extra).Exact where
  start := nofun
  stop p hp := by
    cases hp
    exact ⟨by decide, fun c hc => by cases hc; decide⟩
  extra e he := by
    rw [h e he]
    exact ⟨.null, .null⟩

/-- An attachment that is null is not the same as none. -/
theorem json_output_is_lossless_oddFinding :
    (∀ f ∈ [oddFinding, endFinding (some .null)], f.Exact) ∧
      (∀ f ∈ [oddFinding, endFinding none], f.Exact) ∧
    readFindings (Command.OutputFormat.json.print ⟨[oddFinding, endFinding (some .null)], 1, 0⟩) =
      some [oddFinding, endFinding (some .null)] ∧
    Command.OutputFormat.json.print ⟨[oddFinding, endFinding (some .null)], 1, 0⟩ ≠
      Command.OutputFormat.json.print ⟨[oddFinding, endFinding none], 1, 0⟩ := by
  have hnull : ∀ f ∈ [oddFinding, endFinding (some .null)], f.Exact :=
    List.forall_mem_cons.2 ⟨exact_oddFinding, List.forall_mem_singleton.2
      (exact_endFinding fun e he => by cases he; rfl)⟩
  have hnone : ∀ f ∈ [oddFinding, endFinding none], f.Exact :=
    List.forall_mem_cons.2 ⟨exact_oddFinding, List.forall_mem_singleton.2 (exact_endFinding nofun)⟩
  obtain ⟨-, hread, hdifferent⟩ :=
    @json_output_is_lossless ⟨[oddFinding, endFinding (some .null)], 1, 0⟩ hnull
  refine ⟨hnull, hnone, hread, fun heq => ?_⟩
  have hresults := hdifferent ⟨[oddFinding, endFinding none], 1, 0⟩ hnone heq
  simp [endFinding] at hresults

end Arborist
