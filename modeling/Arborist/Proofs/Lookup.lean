import Arborist.Proofs.Encoding

/-!
# Looking up properties of decoded nodes

A rule asks a node for a child or for an attribute by name, and it does not see where in a JSON
value the answer comes from.  For a decoded node it comes from the member of that name:
`child?_eq_some_iff` and `string?_eq` say so for children and for strings, without regard to how the
members were filed.

The members are filed one by one and in two lists.  Since none is filed twice, what is in the lists
is what is filed of some member (`Decoded.mem_fields_iff`, `Decoded.mem_attributes_iff`), and since
names are distinct, what is looked up is what is in the lists.
-/

namespace Arborist

namespace Json

def text? (v : Json) (name : String) : Option String :=
  (v.get? name).bind string?

theorem string?_eq_some_iff {v : Json} {text : String} :
    v.string? = some text ↔ v = .string text := by
  cases v <;> simp [string?]

theorem text?_eq_some_iff {v : Json} {name text : String} :
    v.text? name = some text ↔ v.get? name = some (.string text) := by
  rw [text?, Option.bind_eq_some_iff]
  constructor
  · rintro ⟨w, hw, htext⟩
    rw [hw, string?_eq_some_iff.1 htext]
  · exact fun h => ⟨_, h, rfl⟩

theorem isNode_of_text? {v : Json} {tag : String} (h : v.text? "type" = some tag) :
    v.isNode = true := by
  rw [isNode, text?_eq_some_iff.1 h]

end Json

namespace Node

/-- A member is filed in one way only. -/
theorem Files.unique {known : Bool} {m : String × Json} {filing filing' : Filing}
    (h : Files known m filing)
    (h' : Files known m filing') : filing = filing' :=
  Except.ok.inj (h.file_eq_ok.symm.trans h'.file_eq_ok)

theorem mem_memberOrder_iff {kind : Kind} {members : List (String × Json)}
    (h : (members.map Prod.fst).Nodup) {e : Bool × String × Json} :
    e ∈ memberOrder kind members ↔
      e.2 ∈ members ∧ e.2.1 ∉ reservedNames ∧ e.1 = kind.childKeys.contains e.2.1 := by
  constructor
  · intro he
    obtain ⟨hmem, hfree, hknown⟩ := of_mem_memberOrder h he
    refine ⟨hmem, fun hreserved => ?_, hknown⟩
    rw [List.contains_iff_mem.2 hreserved] at hfree
    cases hfree
  · rintro ⟨hmem, hfree, hknown⟩
    refine (memberOrder_perm h).symm.subset (List.mem_map.2 ⟨e.2, List.mem_filter.2 ⟨hmem, ?_⟩, ?_⟩)
    · simpa using hfree
    · rw [← hknown]

/-! ### What is filed -/

/-- What is filed of members goes by their names, whether as a field or as an attribute. -/
theorem map_fst_encode?_sublist {es : List (Bool × String × Json)} {filings : List Filing}
    (h : List.Forall₂ (fun e filing => Files e.1 e.2 filing) es filings) :
    ((filings.filterMap Filing.encode?).map Prod.fst).Sublist (es.map fun e => e.2.1) := by
  induction h with
  | nil => exact .slnil
  | @cons e filing es filings hfile _ ih =>
      obtain ⟨known, name, value⟩ := e
      cases hfile with
      | drop => exact ih.cons _
      | single => exact ih.cons_cons _
      | sequence => exact ih.cons_cons _
      | keepArray => exact ih.cons_cons _
      | keep => exact ih.cons_cons _

theorem nodup_names_of_files {kind : Kind} {members : List (String × Json)} {filings : List Filing}
    (h : List.Forall₂ (fun e filing => Files e.1 e.2 filing) (memberOrder kind members) filings)
    (hnames : (members.map Prod.fst).Nodup) :
    ((filings.filterMap Filing.field?).map Field.name ++
      (filings.filterMap Filing.attribute?).map Prod.fst).Nodup := by
  have horder : ((memberOrder kind members).map fun e => e.2.1).Nodup := by
    refine ((memberOrder_perm hnames).map fun e => e.2.1).nodup_iff.2 ?_
    rw [List.map_map]
    exact nodup_names_filter hnames _
  -- both lists together have the names under which the filings are written, and these are names of
  -- members
  have hwritten := (encode?_perm filings).map Prod.fst
  rw [encodeFields_eq_map, List.map_append, List.map_map] at hwritten
  exact hwritten.nodup_iff.2 (horder.sublist (map_fst_encode?_sublist h))

/-- The fields and attributes of a node go by different names, and none of them by one of the
`reservedNames`. -/
def WellNamed (n : Node) : Prop :=
  (n.fields.map Field.name ++ n.attributes.map Prod.fst ++ reservedNames).Nodup

theorem WellNamed.nodup_fields {n : Node} (h : n.WellNamed) : (n.fields.map Field.name).Nodup :=
  (List.nodup_append'.1 (List.nodup_append'.1 h).1).1

theorem WellNamed.nodup_attributes {n : Node} (h : n.WellNamed) :
    (n.attributes.map Prod.fst).Nodup :=
  (List.nodup_append'.1 (List.nodup_append'.1 h).1).2.1

theorem WellNamed.field?_eq_some_iff {n : Node} (h : n.WellNamed) {name : String}
    {slot : Slot Node} :
    n.field? name = some slot ↔ ⟨name, slot⟩ ∈ n.fields := by
  simp only [field?, Option.map_eq_some_iff, Members.list_find?_eq_some_iff h.nodup_fields]
  constructor
  · rintro ⟨f, ⟨hmem, rfl⟩, rfl⟩
    exact hmem
  · exact fun hmem => ⟨_, ⟨hmem, rfl⟩, rfl⟩

theorem WellNamed.attribute?_eq_some_iff {n : Node} (h : n.WellNamed) {name : String}
    {value : Json} :
    n.attribute? name = some value ↔ (name, value) ∈ n.attributes := by
  simp only [attribute?, Members.find?_eq_map, Option.map_eq_some_iff,
    Members.find?_eq_some_iff_mem h.nodup_attributes]
  constructor
  · rintro ⟨m, ⟨hmem, rfl⟩, rfl⟩
    exact hmem
  · exact fun hmem => ⟨_, ⟨hmem, rfl⟩, rfl⟩

theorem Filing.field?_eq_some_iff {filing : Filing} {f : Field Node} :
    filing.field? = some f ↔ filing = .field f := by
  cases filing <;> simp [field?]

theorem Filing.attribute?_eq_some_iff {filing : Filing} {m : String × Json} :
    filing.attribute? = some m ↔ filing = .attribute m.1 m.2 := by
  cases filing <;> simp [attribute?, Prod.ext_iff]

section Filed

variable {members : List (String × Json)} {n : Node}

/-- The fields and attributes of a decoded node are what is filed of its members. -/
theorem Decoded.exists_filings (h : Decoded members n) (hnames : (members.map Prod.fst).Nodup) :
    ∃ filings : List Filing,
      (∀ m ∈ members, m.1 ∉ reservedNames → ∃ filing ∈ filings,
        Files (n.kind.childKeys.contains m.1) m filing) ∧
      (∀ filing ∈ filings, ∃ m ∈ members, m.1 ∉ reservedNames ∧
        Files (n.kind.childKeys.contains m.1) m filing) ∧
      n.fields = filings.filterMap Filing.field? ∧
        n.attributes.Perm (filings.filterMap Filing.attribute?) ∧
      (n.fields.map Field.name ++ n.attributes.map Prod.fst).Nodup := by
  obtain ⟨filings, hfilings, hfields, hattributes⟩ := h.filings
  have hnodup := nodup_names_of_files hfilings hnames
  have hperm : n.attributes.Perm (filings.filterMap Filing.attribute?) := by
    rw [hattributes]
    exact Members.ofList_perm (List.nodup_append'.1 hnodup).2.1
  refine ⟨filings, fun m hmember hfree => ?_, fun filing hmem => ?_, hfields, hperm, ?_⟩
  · have horder : (n.kind.childKeys.contains m.1, m) ∈ memberOrder n.kind members :=
      (mem_memberOrder_iff hnames).2 ⟨hmember, hfree, rfl⟩
    exact exists_mem_of_forall₂ hfilings horder
  · obtain ⟨e, he, hfile⟩ := exists_mem_of_forall₂ hfilings.flip hmem
    obtain ⟨hmember, hfree, hknown⟩ := (mem_memberOrder_iff hnames).1 he
    exact ⟨e.2, hmember, hfree, hknown ▸ hfile⟩
  · rw [hfields]
    exact ((hperm.map Prod.fst).append_left _).nodup_iff.2 hnodup

theorem Decoded.mem_fields_iff (h : Decoded members n) (hnames : (members.map Prod.fst).Nodup)
    {f : Field Node} :
    f ∈ n.fields ↔ ∃ v, (f.name, v) ∈ members ∧ f.name ∉ reservedNames ∧
      Files (n.kind.childKeys.contains f.name) (f.name, v) (.field f) := by
  obtain ⟨filings, hfiled, hfilings, hfields, -⟩ := h.exists_filings hnames
  simp only [hfields, List.mem_filterMap, Filing.field?_eq_some_iff, exists_eq_right]
  constructor
  · intro hmem
    obtain ⟨⟨name, v⟩, hmember, hfree, hfile⟩ := hfilings _ hmem
    obtain rfl : f.name = name := hfile.name_of_field? rfl
    exact ⟨v, hmember, hfree, hfile⟩
  · rintro ⟨v, hmember, hfree, hfile⟩
    obtain ⟨filing, hmem, hfile'⟩ := hfiled _ hmember hfree
    exact hfile'.unique hfile ▸ hmem

theorem Decoded.mem_attributes_iff (h : Decoded members n) (hnames : (members.map Prod.fst).Nodup)
    {m : String × Json} :
    m ∈ n.attributes ↔ m ∈ members ∧ m.1 ∉ reservedNames ∧
      Files (n.kind.childKeys.contains m.1) m (.attribute m.1 m.2) := by
  obtain ⟨name, value⟩ := m
  obtain ⟨filings, hfiled, hfilings, -, hattributes, -⟩ := h.exists_filings hnames
  simp only [hattributes.mem_iff, List.mem_filterMap, Filing.attribute?_eq_some_iff,
    exists_eq_right]
  constructor
  · intro hmem
    obtain ⟨m', hmember, hfree, hfile⟩ := hfilings _ hmem
    obtain rfl : (name, value) = m' := by
      cases hfile <;> rfl
    exact ⟨hmember, hfree, hfile⟩
  · rintro ⟨hmember, hfree, hfile⟩
    obtain ⟨filing, hmem, hfile'⟩ := hfiled _ hmember hfree
    exact hfile'.unique hfile ▸ hmem

theorem Decoded.wellNamed (h : Decoded members n) (hnames : (members.map Prod.fst).Nodup) :
    n.WellNamed := by
  obtain ⟨-, -, -, -, -, hnodup⟩ := h.exists_filings hnames
  refine List.nodup_append'.2 ⟨hnodup, by decide, fun name hname hreserved => ?_⟩
  rcases List.mem_append.1 hname with hfield | hattribute
  · obtain ⟨f, hf, rfl⟩ := List.mem_map.1 hfield
    obtain ⟨-, -, hfree, -⟩ := (h.mem_fields_iff hnames).1 hf
    exact hfree hreserved
  · obtain ⟨m, hm, rfl⟩ := List.mem_map.1 hattribute
    exact ((h.mem_attributes_iff hnames).1 hm).2.1 hreserved

end Filed

theorem exists_decoded {v : Json} {n : Node} (hv : v.WellFormed) (h : ofJson v = .ok n) :
    ∃ members, v = .object members ∧ Members.Sorted members ∧ Decoded members n := by
  obtain ⟨members, rfl, hdecoded⟩ := ofJson_eq_ok_iff.1 h
  cases hv with
  | object hsorted _ => exact ⟨members, rfl, hsorted, hdecoded⟩

theorem wellNamed_of_ofJson {v : Json} {n : Node} (hv : v.WellFormed) (h : ofJson v = .ok n) :
    n.WellNamed := by
  obtain ⟨members, rfl, hsorted, hdecoded⟩ := exists_decoded hv h
  exact hdecoded.wellNamed hsorted.nodup_names

/-! ### Looking up by name -/

section Lookup

variable {v : Json} {n : Node} {name : String}

theorem text?_type (h : ofJson v = .ok n) : v.text? "type" = some n.kind.tag := by
  obtain ⟨members, rfl, hdecoded⟩ := ofJson_eq_ok_iff.1 h
  exact Json.text?_eq_some_iff.2 hdecoded.type

theorem kind_eq_iff (h : ofJson v = .ok n) (kind : Kind) :
    n.kind = kind ↔ v.text? "type" = some kind.tag := by
  rw [text?_type h, Option.some.injEq]
  exact ⟨congrArg Kind.tag, fun htag => Kind.mk.injEq .. ▸ htag⟩

theorem field?_eq_some_iff (hv : v.WellFormed) (h : ofJson v = .ok n) (hname : name ∉ reservedNames)
    {slot : Slot Node} :
    n.field? name = some slot ↔ ∃ w, v.get? name = some w ∧
      Files (n.kind.childKeys.contains name) (name, w) (.field ⟨name, slot⟩) := by
  rw [(wellNamed_of_ofJson hv h).field?_eq_some_iff]
  obtain ⟨members, rfl, hsorted, hdecoded⟩ := exists_decoded hv h
  rw [hdecoded.mem_fields_iff hsorted.nodup_names]
  refine exists_congr fun w => ⟨fun hw => ⟨hsorted.find?_of_mem hw.1, hw.2.2⟩, fun hw => ?_⟩
  exact ⟨Members.mem_of_find? hw.1, hname, hw.2⟩

theorem attribute?_eq_some_iff (hv : v.WellFormed) (h : ofJson v = .ok n)
    (hname : name ∉ reservedNames) {w : Json} :
    n.attribute? name = some w ↔ v.get? name = some w ∧
      Files (n.kind.childKeys.contains name) (name, w) (.attribute name w) := by
  rw [(wellNamed_of_ofJson hv h).attribute?_eq_some_iff]
  obtain ⟨members, rfl, hsorted, hdecoded⟩ := exists_decoded hv h
  rw [hdecoded.mem_attributes_iff hsorted.nodup_names]
  exact ⟨fun hw => ⟨hsorted.find?_of_mem hw.1, hw.2.2⟩, fun hw =>
    ⟨Members.mem_of_find? hw.1, hname, hw.2⟩⟩

/-- A node has a child under a name if the member of that name is a node, and it is what that node
decodes to. -/
theorem child?_eq_some_iff (hv : v.WellFormed) (h : ofJson v = .ok n) (hname : name ∉ reservedNames)
    {c : Node} :
    n.child? name = some c ↔ ∃ w, v.get? name = some w ∧ ofJson w = .ok c := by
  have hsingle : n.child? name = some c ↔ n.field? name = some (.single c) := by
    rw [child?]
    rcases n.field? name with _ | node | items <;> simp
  rw [hsingle, field?_eq_some_iff hv h hname]
  refine exists_congr fun w => and_congr_right fun _ => ⟨fun hfile => ?_, fun hw => ?_⟩
  · cases hfile with
    | single _ hw => exact hw
  · exact .single (Json.isNode_of_text? (text?_type hw)) hw

/-- A node that has a member that is a node has it as a child. -/
theorem exists_child?_of_isNode (hv : v.WellFormed) (h : ofJson v = .ok n)
    (hname : name ∉ reservedNames) {w : Json}
    (hw : v.get? name = some w) (hnode : w.isNode = true) :
    ∃ c, n.child? name = some c ∧ ofJson w = .ok c := by
  obtain ⟨c, hc⟩ : ∃ c, ofJson w = .ok c := by
    obtain ⟨members, rfl, hsorted, hdecoded⟩ := exists_decoded hv h
    obtain ⟨filings, hfiled, -⟩ := hdecoded.exists_filings hsorted.nodup_names
    obtain ⟨filing, -, hfile⟩ := hfiled _ (Members.mem_of_find? hw) hname
    cases hfile with
    | single _ hc => exact ⟨_, hc⟩
    | drop => cases hnode
    | sequence => cases hnode
    | keepArray => cases hnode
    | keep hnode' => exact absurd hnode (Bool.eq_false_iff.1 hnode')
  exact ⟨c, (child?_eq_some_iff hv h hname).2 ⟨w, hw, hc⟩, hc⟩

/-- The strings of a node are the members that are strings. -/
theorem string?_eq (hv : v.WellFormed) (h : ofJson v = .ok n) (hname : name ∉ reservedNames) :
    n.string? name = v.text? name := by
  refine Option.ext fun text => ?_
  rw [string?, Option.bind_eq_some_iff, Json.text?_eq_some_iff]
  constructor
  · rintro ⟨w, hw, htext⟩
    rw [← Json.string?_eq_some_iff.1 htext]
    exact ((attribute?_eq_some_iff hv h hname).1 hw).1
  · intro hget
    refine ⟨_, (attribute?_eq_some_iff hv h hname).2 ⟨hget, ?_⟩, rfl⟩
    exact .keep rfl (by simp [Json.shape]) (by simp [Json.shape])

end Lookup
end Node
end Arborist
