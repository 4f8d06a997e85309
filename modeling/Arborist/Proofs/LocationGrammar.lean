import Arborist.Batch.Finding
import Arborist.Proofs.Location
import Arborist.Proofs.Members

/-!
# What is read as a location

Locations and points come in two forms: as an object, whose parts go by their names, or as an array,
whose parts go by their places.  `Json.part?` takes a part from either, null being no part.  With it
a point and a location are described once for both forms (`IsPoint`, `IsLocation`), and decoding
accepts what is described and nothing else (`decode_eq_ok_iff`).

The lines and columns of a location are those of the value it was read from, and a finding on a node
has them from there.
-/

namespace Arborist

namespace Members

variable {α : Type} (ms : Members α) {name other : String}

theorem find?_without_self (name : String) : find? (without ms [name]) name = none := by
  rw [find?, without, List.lookup_eq_none_iff]
  intro e he
  have hne : e.1 ≠ name := by simpa using (List.mem_filter.1 he).2
  simpa using hne.symm

theorem find?_without_of_ne (h : name ≠ other) :
    find? (without ms [other]) name = find? ms name := by
  induction ms with
  | nil => rfl
  | cons e ms ih =>
      rw [find?_cons, ← ih, without, List.filter_cons]
      by_cases he : e.1 = other
      · simp [he, h, without]
      · simp [he, find?_cons, without]

theorem without_insert_self (name : String) (value : α) :
    without (insert ms name value) [name] = without ms [name] := by
  induction ms with
  | nil => simp [insert, without]
  | cons e ms ih =>
      obtain ⟨n, v⟩ := e
      rw [insert]
      split
      · simp [without]
      · split
        next heq =>
          simp [without, heq]
        next hne =>
          have hkept : ((n, v) : String × α).1 ∉ [name] := by simpa using Ne.symm hne
          simp only [without] at ih ⊢
          rw [List.filter_cons, List.filter_cons, ih]

end Members

namespace Json

def given (found : Option Json) : Option Json := found.filter fun v => !v.isNull

/-- A part of the value `v`, by its `name` in an object and by its `place` in an array.  Null is as
good as nothing there. -/
def part? (v : Json) (name : String) (place : Nat) : Option Json :=
  match v with
  | .object members => given (Members.find? members name)
  | .array items => given items[place]?
  | _ => none

/-- A value that has parts: an object with any names, or an array with no more than `most` items. -/
def HasParts (most : Nat) : Json → Prop
  | .object _ => True
  | .array items => items.length ≤ most
  | _ => False

instance (most : Nat) : DecidablePred (HasParts most)
  | .object _ => inferInstanceAs (Decidable True)
  | .array items => inferInstanceAs (Decidable (items.length ≤ most))
  | .null | .bool _ | .number _ | .string _ => inferInstanceAs (Decidable False)

end Json

namespace Location

/-! ### The grammar -/

def IsCount (v : Json) (n : Nat) : Prop :=
  v = .number (.integer n) ∧ n < UInt32.size

def IsString (v : Json) (s : String) : Prop :=
  v = .string s

structure IsPoint (v : Json) (p : Point) : Prop where
  hasParts : v.HasParts 2
  line : Option.Rel IsCount (v.part? "line" 0) (some p.line)
  column : Option.Rel IsCount (v.part? "column" 1) p.column

/-- A location may have a start, an end and a source.  Nothing else in the value matters. -/
structure IsLocation (v : Json) (loc : Location) : Prop where
  hasParts : v.HasParts 3
  start : Option.Rel IsPoint (v.part? "start" 0) loc.start
  stop : Option.Rel IsPoint (v.part? "end" 1) loc.stop
  source : Option.Rel IsString (v.part? "source" 2) loc.source

structure SamePoint (v w : Json) : Prop where
  hasParts : v.HasParts 2 ∧ w.HasParts 2
  line : v.part? "line" 0 = w.part? "line" 0
  column : v.part? "column" 1 = w.part? "column" 1

/-- The same start, end and source, whether by name or by place, and so for the points in them. -/
structure SameLocation (v w : Json) : Prop where
  hasParts : v.HasParts 3 ∧ w.HasParts 3
  start : Option.Rel (fun p q => p = q ∨ SamePoint p q) (v.part? "start" 0) (w.part? "start" 0)
  stop : Option.Rel (fun p q => p = q ∨ SamePoint p q) (v.part? "end" 1) (w.part? "end" 1)
  source : v.part? "source" 2 = w.part? "source" 2

/-! ### Decoding -/

theorem decodeCount_integer (i : Int) :
    decodeCount (.number (.integer i)) =
      if 0 ≤ i ∧ i < UInt32.size then .ok i.toNat else .error (.outOfRange i) :=
  rfl

theorem decodeCount_eq_ok_iff (v : Json) (n : Nat) : decodeCount v = .ok n ↔ IsCount v n := by
  constructor
  · intro h
    rcases v with _ | _ | ⟨i | _⟩ | _ | _ | _
    case number.integer =>
      rw [decodeCount_integer] at h
      split at h
      next hrange =>
        cases h
        rw [IsCount, Int.toNat_of_nonneg hrange.1]
        exact ⟨rfl, by omega⟩
      next => cases h
    all_goals cases h
  · rintro ⟨rfl, hn⟩
    rw [decodeCount_integer, if_pos ⟨Int.natCast_nonneg n, Int.ofNat_lt.2 hn⟩, Int.toNat_natCast]

theorem decodeString_eq_ok_iff (v : Json) (s : String) : decodeString v = .ok s ↔ IsString v s := by
  cases v with
  | string t => simp [decodeString, IsString]
  | _ => simp [decodeString, IsString]

/-- What may be missing decodes if there is nothing, or something that decodes. -/
theorem optional_eq_ok_iff {α : Type} {decode : Json → Except Fault α} {R : Json → α → Prop}
    (hdecode : ∀ v a, decode v = .ok a ↔ R v a) {found : Option Json} {value : Option α} :
    optional decode found = .ok value ↔ Option.Rel R (Json.given found) value := by
  have hsome : ∀ v : Json, v.isNull = false →
      (optional decode (some v) = .ok value ↔ Option.Rel R (some v) value) := by
    intro v hv
    have hopt : optional decode (some v) = (decode v).map some := by
      cases v with
      | null => cases hv
      | _ => rfl
    rw [hopt, map_eq_ok_iff]
    cases value with
    | none => simp
    | some a => simp [hdecode]
  have hnone : (Except.ok none : Except Fault (Option α)) = .ok value ↔
      Option.Rel R none value := by
    cases value with
    | none => simp
    | some a => simp
  rcases found with _ | v
  · exact hnone
  · cases v with
    | null => exact hnone
    | _ => exact hsome _ rfl

theorem isNull_of_decodeCount {v : Json} {n : Nat} (h : decodeCount v = .ok n) :
    v.isNull = false := by
  obtain ⟨rfl, -⟩ := (decodeCount_eq_ok_iff v n).1 h
  rfl

theorem decodePoint_object_eq_ok_iff {members : List (String × Json)} {p : Point} :
    decodePoint (.object members) = .ok p ↔
      optional decodeCount (Members.find? members "line") = .ok (some p.line) ∧
        optional decodeCount (Members.find? members "column") = .ok p.column := by
  simp only [decodePoint, bind_eq_ok_iff, optional_eq_ok_some_iff]
  constructor
  · rintro ⟨column, hcolumn, h⟩
    split at h
    next => cases h
    next line hline =>
      obtain ⟨n, hn, h⟩ := bind_eq_ok_iff.1 h
      cases h
      exact ⟨⟨line, hline, isNull_of_decodeCount hn, hn⟩, hcolumn⟩
  · rintro ⟨⟨line, hline, -, hn⟩, hcolumn⟩
    refine ⟨p.column, hcolumn, ?_⟩
    rw [hline]
    exact bind_eq_ok_iff.2 ⟨p.line, hn, rfl⟩

theorem decodePoint_array_eq_ok_iff {items : List Json} {p : Point} :
    decodePoint (.array items) = .ok p ↔
      items.length ≤ 2 ∧ optional decodeCount items[0]? = .ok (some p.line) ∧
        optional decodeCount items[1]? = .ok p.column := by
  rcases items with _ | ⟨line, rest⟩
  · simp [decodePoint, optional_eq_ok_some_iff]
  · simp only [decodePoint, bind_eq_ok_iff, optional_eq_ok_some_iff]
    constructor
    · rintro ⟨n, hn, column, hcolumn, h⟩
      split at h
      next => cases h
      next hlength =>
        cases h
        exact ⟨Nat.le_of_not_lt hlength, ⟨line, rfl, isNull_of_decodeCount hn, hn⟩,
          by simpa using hcolumn⟩
    · rintro ⟨hlength, ⟨_, hline, -, hn⟩, hcolumn⟩
      cases hline
      refine ⟨p.line, hn, p.column, by simpa using hcolumn, ?_⟩
      rw [if_neg (Nat.not_lt.2 hlength)]
      rfl

theorem decodePoint_eq_ok_iff (v : Json) (p : Point) : decodePoint v = .ok p ↔ IsPoint v p := by
  cases v with
  | object members =>
      rw [decodePoint_object_eq_ok_iff, optional_eq_ok_iff decodeCount_eq_ok_iff,
        optional_eq_ok_iff decodeCount_eq_ok_iff]
      exact ⟨fun ⟨hline, hcolumn⟩ => ⟨trivial, hline, hcolumn⟩, fun h => ⟨h.line, h.column⟩⟩
  | array items =>
      rw [decodePoint_array_eq_ok_iff, optional_eq_ok_iff decodeCount_eq_ok_iff,
        optional_eq_ok_iff decodeCount_eq_ok_iff]
      exact ⟨fun ⟨hlength, hline, hcolumn⟩ => ⟨hlength, hline, hcolumn⟩,
        fun h => ⟨h.hasParts, h.line, h.column⟩⟩
  | _ => exact ⟨(nomatch ·), fun h => h.hasParts.elim⟩

theorem decode_object_eq_ok_iff {members : List (String × Json)} {loc : Location} :
    decode (.object members) = .ok loc ↔
      optional decodePoint (Members.find? members "start") = .ok loc.start ∧
        optional decodePoint (Members.find? members "end") = .ok loc.stop ∧
        optional decodeString (Members.find? members "source") = .ok loc.source := by
  simp only [decode, bind_eq_ok_iff]
  constructor
  · rintro ⟨stop, hstop, source, hsource, start, hstart, h⟩
    cases h
    exact ⟨hstart, hstop, hsource⟩
  · rintro ⟨hstart, hstop, hsource⟩
    exact ⟨_, hstop, _, hsource, _, hstart, rfl⟩

theorem decode_array_eq_ok_iff {items : List Json} {loc : Location} :
    decode (.array items) = .ok loc ↔
      items.length ≤ 3 ∧ optional decodePoint items[0]? = .ok loc.start ∧
        optional decodePoint items[1]? = .ok loc.stop ∧
          optional decodeString items[2]? = .ok loc.source := by
  simp only [decode, bind_eq_ok_iff]
  constructor
  · rintro ⟨start, hstart, stop, hstop, source, hsource, h⟩
    split at h
    next => cases h
    next hlength =>
      cases h
      exact ⟨Nat.le_of_not_lt hlength, hstart, hstop, hsource⟩
  · rintro ⟨hlength, hstart, hstop, hsource⟩
    refine ⟨_, hstart, _, hstop, _, hsource, ?_⟩
    rw [if_neg (Nat.not_lt.2 hlength)]
    rfl

/-- Decoding accepts what the grammar describes, and gives what it says. -/
theorem decode_eq_ok_iff (v : Json) (loc : Location) : decode v = .ok loc ↔ IsLocation v loc := by
  cases v with
  | object members =>
      rw [decode_object_eq_ok_iff, optional_eq_ok_iff decodePoint_eq_ok_iff,
        optional_eq_ok_iff decodePoint_eq_ok_iff, optional_eq_ok_iff decodeString_eq_ok_iff]
      constructor
      · rintro ⟨hstart, hstop, hsource⟩
        exact ⟨trivial, hstart, hstop, hsource⟩
      · intro h
        exact ⟨h.start, h.stop, h.source⟩
  | array items =>
      rw [decode_array_eq_ok_iff, optional_eq_ok_iff decodePoint_eq_ok_iff,
        optional_eq_ok_iff decodePoint_eq_ok_iff, optional_eq_ok_iff decodeString_eq_ok_iff]
      constructor
      · rintro ⟨hlength, hstart, hstop, hsource⟩
        exact ⟨hlength, hstart, hstop, hsource⟩
      · intro h
        exact ⟨h.hasParts, h.start, h.stop, h.source⟩
  | _ => exact ⟨(nomatch ·), fun h => h.hasParts.elim⟩

/-! ### Two forms of the same -/

theorem SamePoint.symm {v w : Json} (h : SamePoint v w) : SamePoint w v :=
  ⟨h.hasParts.symm, h.line.symm, h.column.symm⟩

theorem SamePoint.isPoint {v w : Json} {p : Point} (h : SamePoint v w) (hv : IsPoint v p) :
    IsPoint w p :=
  ⟨h.hasParts.2, h.line ▸ hv.line, h.column ▸ hv.column⟩

theorem rel_isPoint_of_same {found found' : Option Json} {p : Option Point}
    (h : Option.Rel (fun v w => v = w ∨ SamePoint v w) found found')
    (hp : Option.Rel IsPoint found p) :
    Option.Rel IsPoint found' p := by
  cases h with
  | none => exact hp
  | some hsame =>
      cases hp with
      | some hv =>
          rcases hsame with rfl | hsame
          · exact .some hv
          · exact .some (hsame.isPoint hv)

theorem SameLocation.symm {v w : Json} (h : SameLocation v w) : SameLocation w v := by
  have hpart : ∀ {found found' : Option Json},
      Option.Rel (fun v w => v = w ∨ SamePoint v w) found found' →
      Option.Rel (fun v w => v = w ∨ SamePoint v w) found' found := by
    intro found found' hrel
    cases hrel with
    | none => exact .none
    | some hsame => exact .some (hsame.imp Eq.symm SamePoint.symm)
  exact ⟨h.hasParts.symm, hpart h.start, hpart h.stop, h.source.symm⟩

theorem SameLocation.isLocation {v w : Json} {loc : Location} (h : SameLocation v w)
    (hv : IsLocation v loc) :
    IsLocation w loc :=
  ⟨h.hasParts.2, rel_isPoint_of_same h.start hv.start, rel_isPoint_of_same h.stop hv.stop,
    h.source ▸ hv.source⟩

end Location

namespace Node

open Location

theorem decodeLocation_eq_ok_none_iff {kind : Kind} {v : Json} :
    decodeLocation kind (some v) = .ok none ↔ v = .null := by
  cases v with
  | null => simp [decodeLocation]
  | _ =>
      simp only [decodeLocation]
      split <;> simp

theorem decodeLocation_eq_ok_some_iff {kind : Kind} {v : Json} {loc : Location} :
    decodeLocation kind (some v) = .ok (some loc) ↔ IsLocation v loc := by
  rw [← decode_eq_ok_iff]
  cases v with
  | null => simp [decodeLocation, decode]
  | _ =>
      simp only [decodeLocation]
      split <;> simp_all

/-- What is neither null nor a location is an error, and the error names the kind. -/
theorem exists_decodeLocation_eq_error {kind : Kind} {v : Json} (hnull : v ≠ .null)
    (h : ∀ loc, ¬ IsLocation v loc) :
    ∃ fault, decodeLocation kind (some v) = .error (.location kind.tag fault) := by
  cases hdecode : decode v with
  | ok loc => exact absurd ((decode_eq_ok_iff v loc).1 hdecode) (h loc)
  | error fault =>
      refine ⟨fault, ?_⟩
      cases v with
      | null => exact absurd rfl hnull
      | _ => simp only [decodeLocation, hdecode]

/-- The location of a node does not depend on anything else in it, and nothing else depends on the
location. -/
theorem ofJson_object_eq_bind {members : List (String × Json)} {tag : String}
    (htype : Members.find? members "type" = some (.string tag)) :
    ofJson (.object members) = (do
      let loc ← decodeLocation ⟨tag⟩ (Members.find? members "loc")
      (ofJson (.object (Members.without members ["loc"]))).map fun n => { n with loc }) := by
  have htype' : Members.find? (Members.without members ["loc"]) "type" = some (.string tag) := by
    rw [Members.find?_without_of_ne members (by decide), htype]
  have hloc : Members.find? (Members.without members ["loc"]) "loc" = none :=
    Members.find?_without_self members "loc"
  have hextension : Members.find? (Members.without members ["loc"]) "inferredType" =
      Members.find? members "inferredType" :=
    Members.find?_without_of_ne members (by decide)
  have horder : memberOrder ⟨tag⟩ (Members.without members ["loc"]) =
      memberOrder ⟨tag⟩ members := by
    have hfree : (Members.without members ["loc"]).filter (fun m => !reservedNames.contains m.1) =
        members.filter fun m => !reservedNames.contains m.1 := by
      rw [Members.without, List.filter_filter]
      refine List.filter_congr fun m _ => ?_
      by_cases hm : m.1 = "loc" <;> simp [hm, reservedNames]
    simp only [memberOrder, hfree]
  rw [ofJson_object, ofJson_object, decodeObject, decodeObject]
  simp only [find?_map_ofMember, filingOrder_map_ofMember, List.mapM_map, htype, htype',
    hloc, hextension]
  show (decodeLocation ⟨tag⟩ _ >>= _) = _
  cases decodeLocation ⟨tag⟩ (Members.find? members "loc") with
  | error e => rfl
  | ok loc =>
      show (List.mapM _ (memberOrder ⟨tag⟩ members) >>= _) =
        Except.map _ (List.mapM _ (memberOrder ⟨tag⟩ (Members.without members ["loc"])) >>= _)
      rw [horder]
      rw [map_bind_pure]

/-- The points of a finding are those that the value of the location gives. -/
theorem rel_isPoint_finding {kind : Kind} {v : Json} {n : Node}
    (h : decodeLocation kind (some v) = .ok n.loc)
    {report : Report} (hreport : report.node = n) (path : String) :
    Option.Rel IsPoint (v.part? "start" 0) (Finding.ofReport path report).start ∧
      Option.Rel IsPoint (v.part? "end" 1) (Finding.ofReport path report).stop := by
  rw [Finding.ofReport, hreport]
  cases hloc : n.loc with
  | none =>
      rw [hloc] at h
      rw [decodeLocation_eq_ok_none_iff.1 h]
      exact ⟨.none, .none⟩
  | some loc =>
      rw [hloc] at h
      have hlocation := decodeLocation_eq_ok_some_iff.1 h
      exact ⟨hlocation.start, hlocation.stop⟩

/-- What stands as the location of a node is null, in which case the node has no location, or it is
a location by the grammar, in which case the node has that one, or the node is refused for it;
nothing else about the node depends on it.  The two forms of one location are as good as each
other.  A finding on the node has the points of the location, as they were given. -/
theorem locations_follow_grammar {members : List (String × Json)} {tag : String} {v : Json}
    (htype : Members.find? members "type" = some (.string tag))
    (hloc : Members.find? members "loc" = some v) :
    (v = .null → ofJson (.object members) =
      (ofJson (.object (Members.without members ["loc"]))).map fun n => { n with loc := none }) ∧
    (∀ loc, IsLocation v loc → ofJson (.object members) =
      (ofJson (.object (Members.without members ["loc"]))).map fun n =>
        { n with loc := some loc }) ∧
    (v ≠ .null → (∀ loc, ¬ IsLocation v loc) →
      ∃ fault, ofJson (.object members) = .error (.location tag fault)) ∧
    (∀ n, ofJson (.object members) = .ok n →
      (n.loc = none ↔ v = .null) ∧ (∀ loc, n.loc = some loc ↔ IsLocation v loc) ∧
      ∀ path report, report.node = n →
        Option.Rel IsPoint (v.part? "start" 0) (Finding.ofReport path report).start ∧
          Option.Rel IsPoint (v.part? "end" 1) (Finding.ofReport path report).stop) ∧
    ∀ w, SameLocation v w → ∀ n, ofJson (.object (Members.insert members "loc" w)) = .ok n ↔
      ofJson (.object members) = .ok n := by
  have hbind := ofJson_object_eq_bind htype
  rw [hloc] at hbind
  refine ⟨fun hnull => ?_, fun loc h => ?_, fun hnull h => ?_, fun n hn => ?_, fun w hsame n => ?_⟩
  · rw [hbind, decodeLocation_eq_ok_none_iff.2 hnull]
    rfl
  · rw [hbind, decodeLocation_eq_ok_some_iff.2 h]
    rfl
  · obtain ⟨fault, hfault⟩ : ∃ fault, decodeLocation ⟨tag⟩ (some v) = .error
        (.location tag fault) :=
      exists_decodeLocation_eq_error hnull h
    rw [hbind, hfault]
    exact ⟨fault, rfl⟩
  · obtain ⟨_, ⟨⟩, hdecoded⟩ := ofJson_eq_ok_iff.1 hn
    have hread := hdecoded.loc
    rw [hloc] at hread
    refine ⟨?_, fun loc => ?_, fun path report hreport => rel_isPoint_finding hread hreport path⟩
    · rw [← @decodeLocation_eq_ok_none_iff n.kind, hread, Except.ok.injEq]
    · rw [← @decodeLocation_eq_ok_some_iff n.kind, hread, Except.ok.injEq]
  · -- both forms decode to the same, and what stands beside them is the same
    have htype' : Members.find? (Members.insert members "loc" w) "type" = some (.string tag) := by
      rw [Members.find?_insert, if_neg (by decide), htype]
    have hloc' : Members.find? (Members.insert members "loc" w) "loc" = some w := by
      rw [Members.find?_insert, if_pos rfl]
    rw [hbind, ofJson_object_eq_bind htype', hloc', Members.without_insert_self, bind_eq_ok_iff,
      bind_eq_ok_iff]
    refine exists_congr fun loc => and_congr_left fun _ => ?_
    cases loc with
    | none =>
        rw [decodeLocation_eq_ok_none_iff, decodeLocation_eq_ok_none_iff]
        constructor
        · rintro rfl
          exact hsame.hasParts.2.elim
        · rintro rfl
          exact hsame.hasParts.1.elim
    | some loc =>
        rw [decodeLocation_eq_ok_some_iff, decodeLocation_eq_ok_some_iff]
        exact ⟨hsame.symm.isLocation, hsame.isLocation⟩

end Node

/-! ### A name with a location -/

/-- An identifier from line 1 to column 7 of line 2.  Its start has no column, and its location has
a member that locations do not have. -/
def spannedName : List (String × Json) :=
  [("loc", .object [("end", .array [.ofNat 2, .ofNat 7]), ("start", .object [("line", .ofNat 1)]),
    ("unit", .bool true)]), ("type", .string "Identifier")]

def spanByPlace : Json :=
  .array [.array [.ofNat 1, .null], .object [("column", .ofNat 7), ("line", .ofNat 2)]]

namespace Node

open Location

theorem locations_follow_grammar_spannedName :
    Members.find? spannedName "type" = some (.string "Identifier") ∧
    ofJson (.object spannedName) =
      .ok { Node.ofKind .identifier with loc := some ⟨some ⟨1, none⟩, some ⟨2, some 7⟩, none⟩ } ∧
    ofJson (.object (Members.insert spannedName "loc" spanByPlace)) =
      .ok { Node.ofKind .identifier with loc := some ⟨some ⟨1, none⟩, some ⟨2, some 7⟩, none⟩ } ∧
    ∃ fault, ofJson (.object (Members.insert spannedName "loc" (.array [.array []]))) =
      .error (.location "Identifier" fault) := by
  have hcount : ∀ n, n < UInt32.size → IsCount (.ofNat n) n := fun n hn => ⟨rfl, hn⟩
  have hlocation :
      IsLocation (.object [("end", .array [.ofNat 2, .ofNat 7]),
          ("start", .object [("line", .ofNat 1)]), ("unit", .bool true)])
          ⟨some ⟨1, none⟩, some ⟨2, some 7⟩, none⟩ := by
    refine ⟨trivial, .some ⟨trivial, .some (hcount 1 ?_), .none⟩,
      .some ⟨Nat.le_refl 2, .some (hcount 2 ?_), .some (hcount 7 ?_)⟩, .none⟩
    all_goals decide
  have hsame :
      SameLocation (.object [("end", .array [.ofNat 2, .ofNat 7]),
          ("start", .object [("line", .ofNat 1)]), ("unit", .bool true)]) spanByPlace := by
    refine ⟨⟨trivial, by decide⟩, .some (.inr ⟨⟨trivial, by decide⟩, rfl, rfl⟩),
      .some (.inr ⟨⟨by decide, trivial⟩, rfl, rfl⟩), rfl⟩
  obtain ⟨-, hread, -, -, hforms⟩ := @locations_follow_grammar spannedName _ _ rfl rfl
  have hempty : ∀ loc, ¬ IsLocation (.array [.array []]) loc := by
    rintro ⟨_ | p, stop, source⟩ ⟨-, hstart, -, -⟩
    · cases hstart
    · cases hstart with
      | some hp => cases hp.line
  obtain ⟨-, -, hrefused, -⟩ :=
    @locations_follow_grammar (Members.insert spannedName "loc" (.array [.array []]))
      "Identifier" _ rfl rfl
  have hname := hread _ hlocation
  rw [show Members.without spannedName ["loc"] = [("type", .string "Identifier")] from rfl,
    show ofJson (.object [("type", .string "Identifier")]) =
        .ok (.ofKind .identifier) from ofJson_type .identifier] at hname
  refine ⟨rfl, hname, (hforms _ hsame _).2 hname, hrefused (by simp) hempty⟩

end Node
end Arborist
