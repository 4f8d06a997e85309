import Arborist.Proofs.Decoding

/-!
# Locations written back

A location is written as an object with all three of its members, null standing for a part that is
missing.  Whatever form a location was read from, reading the object it is written as gives the same
location again.
-/

namespace Arborist

namespace Json

def ofOption {α : Type} (encode : α → Json) : Option α → Json
  | none => .null
  | some a => encode a

theorem WellFormed.ofOption {α : Type} {encode : α → Json} (h : ∀ a, (encode a).WellFormed)
    (value : Option α) :
    (ofOption encode value).WellFormed := by
  cases value with
  | none => exact .null
  | some a => exact h a

end Json

def Point.encode (p : Point) : Json :=
  .object [("column", .ofOption .ofNat p.column), ("line", .ofNat p.line)]

namespace Location

def encode (loc : Location) : Json :=
  .object [("end", .ofOption Point.encode loc.stop), ("source", .ofOption .string loc.source),
    ("start", .ofOption Point.encode loc.start)]

section Optional

variable {α : Type} {decode : Json → Except Fault α} {encode : α → Json}

theorem optional_eq_ok_some_iff {found : Option Json} {a : α} :
    optional decode found = .ok (some a) ↔ ∃ v, found = some v ∧ v.isNull = false ∧
      decode v = .ok a := by
  rcases found with _ | v
  · simp [optional]
  · cases v <;> simp [optional, Json.isNull, map_eq_ok_iff]

/-- What has been read as a part that may be missing is read again. -/
theorem optional_ofOption (hencode : ∀ v a, decode v = .ok a → decode (encode a) = .ok a)
    (hnull : ∀ a, (encode a).isNull = false) {found : Option Json} {value : Option α}
    (h : optional decode found = .ok value) :
    optional decode (some (.ofOption encode value)) = .ok value := by
  cases value with
  | none => rfl
  | some a =>
      obtain ⟨v, -, -, hv⟩ := optional_eq_ok_some_iff.1 h
      exact optional_eq_ok_some_iff.2 ⟨encode a, rfl, hnull a, hencode v a hv⟩

end Optional

theorem decodeCount_ofNat {v : Json} {n : Nat} (h : decodeCount v = .ok n) :
    decodeCount (.ofNat n) = .ok n := by
  rcases v with _ | _ | ⟨_ | _⟩ | _ | _ | _
  case number.integer i =>
    simp only [decodeCount] at h
    split at h
    next hrange =>
      cases h
      have hcast : ((i.toNat : Nat) : Int) = i := Int.toNat_of_nonneg hrange.1
      simp only [Json.ofNat, Json.ofInt, decodeCount, hcast]
      rw [if_pos hrange]
    next => cases h
  all_goals cases h

theorem decodeString_string {v : Json} {s : String} (_ : decodeString v = .ok s) :
    decodeString (.string s) = .ok s :=
  rfl

/-- What a point is read from: a line and, possibly, a column. -/
theorem exists_of_decodePoint {v : Json} {p : Point} (h : decodePoint v = .ok p) :
    ∃ line column, decodeCount line = .ok p.line ∧ optional decodeCount column = .ok p.column := by
  cases v with
  | object members =>
      simp only [decodePoint, bind_eq_ok_iff] at h
      obtain ⟨column, hcolumn, h⟩ := h
      split at h
      next => cases h
      next line _ =>
        obtain ⟨n, hline, h⟩ := bind_eq_ok_iff.1 h
        cases h
        exact ⟨line, _, hline, hcolumn⟩
  | array items =>
      rcases items with _ | ⟨line, rest⟩
      · cases h
      · simp only [decodePoint, bind_eq_ok_iff] at h
        obtain ⟨n, hline, column, hcolumn, h⟩ := h
        split at h
        · cases h
        · cases h
          exact ⟨line, _, hline, hcolumn⟩
  | _ => cases h

theorem decodePoint_encode {v : Json} {p : Point} (h : decodePoint v = .ok p) :
    decodePoint p.encode = .ok p := by
  obtain ⟨line, column, hline, hcolumn⟩ := exists_of_decodePoint h
  have hcolumn' : optional decodeCount (some (.ofOption .ofNat p.column)) = .ok p.column :=
    optional_ofOption (fun _ _ hcount => decodeCount_ofNat hcount) (fun _ => rfl) hcolumn
  show (do
    let column ← optional decodeCount (some (.ofOption .ofNat p.column))
    return (⟨← decodeCount (.ofNat p.line), column⟩ : Point)) = .ok p
  rw [hcolumn', decodeCount_ofNat hline]
  rfl

/-- What a location is read from, whether by name or by position. -/
theorem exists_of_decode {v : Json} {loc : Location} (h : decode v = .ok loc) :
    ∃ start stop source, optional decodePoint start = .ok loc.start ∧
      optional decodePoint stop = .ok loc.stop ∧
      optional decodeString source = .ok loc.source := by
  cases v with
  | object members =>
      simp only [decode, bind_eq_ok_iff] at h
      obtain ⟨stop, hstop, source, hsource, start, hstart, h⟩ := h
      cases h
      exact ⟨_, _, _, hstart, hstop, hsource⟩
  | array items =>
      simp only [decode, bind_eq_ok_iff] at h
      obtain ⟨start, hstart, stop, hstop, source, hsource, h⟩ := h
      split at h
      · cases h
      · cases h
        exact ⟨_, _, _, hstart, hstop, hsource⟩
  | _ => cases h

theorem decode_encode {v : Json} {loc : Location} (h : decode v = .ok loc) :
    decode loc.encode = .ok loc := by
  obtain ⟨start, stop, source, hstart, hstop, hsource⟩ := exists_of_decode h
  have hstart' : optional decodePoint (some (.ofOption Point.encode loc.start)) = .ok loc.start :=
    optional_ofOption (fun _ _ => decodePoint_encode) (fun _ => rfl) hstart
  have hstop' : optional decodePoint (some (.ofOption Point.encode loc.stop)) = .ok loc.stop :=
    optional_ofOption (fun _ _ => decodePoint_encode) (fun _ => rfl) hstop
  have hsource' : optional decodeString (some (.ofOption .string loc.source)) = .ok loc.source :=
    optional_ofOption (fun _ _ => decodeString_string) (fun _ => rfl) hsource
  show (do
    let stop ← optional decodePoint (some (.ofOption Point.encode loc.stop))
    let source ← optional decodeString (some (.ofOption .string loc.source))
    let start ← optional decodePoint (some (.ofOption Point.encode loc.start))
    return (⟨start, stop, source⟩ : Location)) = .ok loc
  rw [hstart', hstop', hsource']
  rfl

theorem wellFormed_encode (loc : Location) : loc.encode.WellFormed := by
  have hcount : ∀ n : Nat, (Json.ofNat n).WellFormed := fun n => .number (.integer n)
  have hpoint : ∀ p : Point, p.encode.WellFormed := by
    intro p
    refine .object (show ["column", "line"].Pairwise (· < ·) by decide) ?_
    simpa using ⟨Json.WellFormed.ofOption hcount p.column, hcount p.line⟩
  refine .object (show ["end", "source", "start"].Pairwise (· < ·) by decide) ?_
  simpa using ⟨Json.WellFormed.ofOption hpoint loc.stop,
    Json.WellFormed.ofOption .string loc.source,
    Json.WellFormed.ofOption hpoint loc.start⟩

end Location
end Arborist
