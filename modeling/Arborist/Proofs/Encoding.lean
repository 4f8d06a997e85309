import Arborist.Proofs.Location
import Arborist.Proofs.Members
import Arborist.Proofs.Positions

/-!
# Trees written back as JSON

`Node.encode` writes a tree as a JSON value, and `Json.normal` says what is left of a value when it
is read as a tree and written back: null goes where it means that there is nothing, items of a
sequence that are no nodes become null, and locations are written in full.  Everything else stays as
it is, at every position at which a node stands.

The two sides meet in the filings of a node: what is filed of a member is written as the normal form
of the member (`Files.encode?_eq`).  The members are filed in the order of the kind and written in
the order of their names, so that they are compared as permutations.
-/

namespace Arborist

namespace Node

mutual

/-- A tree as a JSON value.  Fields and attributes are members under their names, and empty places
of a sequence are null. -/
def encode : Node → Json
  | ⟨kind, loc, fields, attributes, extension⟩ =>
    .ofMembers (("type", .string kind.tag) :: (loc.map fun loc => ("loc", loc.encode)).toList
      ++ (extension.map fun v => ("inferredType", v)).toList ++ encodeFields fields ++ attributes)

def encodeFields : List (Field Node) → List (String × Json)
  | [] => []
  | ⟨name, slot⟩ :: fields => (name, encodeSlot slot) :: encodeFields fields

def encodeSlot : Slot Node → Json
  | .single node => encode node
  | .sequence items => .array (encodeItems items)

def encodeItems : List (Option Node) → List Json
  | [] => []
  | none :: items => .null :: encodeItems items
  | some node :: items => encode node :: encodeItems items

end

theorem encodeFields_eq_map (fields : List (Field Node)) :
    encodeFields fields = fields.map fun f => (f.name, encodeSlot f.slot) := by
  induction fields with
  | nil => rfl
  | cons f fields ih => simp [encodeFields, ih]

end Node

namespace Json

def isDropped (keys : List String) (name : String) (v : Json) : Bool :=
  v.isNull && (name == "loc" || name == "inferredType" || keys.contains name)

def normalLoc (v : Json) : Json :=
  match Location.decode v with
  | .ok loc => loc.encode
  | .error _ => v

mutual

/-- The normal form of a value: what the tree that it decodes to is written as.  Everything that
decoding drops is gone, and everything that it fills in is there; `known` says whether the value
stands under a child property of the kind. -/
def normalAt (known : Bool) : Json → Json
  | .object members =>
    if isNode (.object members) then .object (normalMembers (childKeys (.object members)) members)
    else .object members
  | .array items => if known || items.any isNode then .array (normalItems items) else .array items
  | v => v

def normalItems : List Json → List Json
  | [] => []
  | v :: items => (if v.isNode then normalAt false v else .null) :: normalItems items

def normalMembers (keys : List String) : List (String × Json) → List (String × Json)
  | [] => []
  | m :: members => (normalMember keys m).toList ++ normalMembers keys members

/-- The normal form of a member of a node whose kind has the child properties `keys`, or nothing if
it is dropped (`isDropped`). -/
def normalMember (keys : List String) : String × Json → Option (String × Json)
  | (name, v) =>
    if isDropped keys name v then none
    else if name = "loc" then some (name, normalLoc v)
    else if Node.reservedNames.contains name then some (name, v)
    else some (name, normalAt (keys.contains name) v)

end

def normal (v : Json) : Json := normalAt false v

theorem normalItems_eq_map (items : List Json) :
    normalItems items = items.map fun v => if v.isNode then normalAt false v else .null := by
  induction items with
  | nil => rfl
  | cons v items ih => simp [normalItems, ih]

theorem normalMembers_eq_filterMap (keys : List String) (members : List (String × Json)) :
    normalMembers keys members = members.filterMap (normalMember keys) := by
  induction members with
  | nil => rfl
  | cons m members ih =>
      rw [normalMembers, ih, List.filterMap_cons]
      cases normalMember keys m <;> rfl

theorem fst_of_normalMember {keys : List String} {m m' : String × Json}
    (h : normalMember keys m = some m') :
    m'.1 = m.1 := by
  obtain ⟨name, v⟩ := m
  simp only [normalMember] at h
  split_ifs at h <;> cases h <;> rfl

/-- A property holds of a value and, if the value is an array, of its items: of everything in a
member that may be a node. -/
structure Holds (P : Json → Prop) (v : Json) : Prop where
  self : P v
  items : ∀ items, v = .array items → ∀ w ∈ items, P w

/-- What holds of a value whenever it holds of what may be a node in its members holds of every
well-formed value. -/
theorem WellFormed.holds {P : Json → Prop}
    (step : ∀ v : Json, v.WellFormed →
      (∀ members, v = .object members → ∀ m ∈ members, m.2.Holds P) → P v)
    {v : Json} (hv : v.WellFormed) : v.Holds P := by
  induction hv with
  | array hitems ih =>
      refine ⟨step _ (.array hitems) (by rintro _ ⟨⟩), ?_⟩
      rintro _ ⟨⟩ w hw
      exact (ih w hw).self
  | object hsorted hmembers ih =>
      refine ⟨step _ (.object hsorted hmembers) ?_, by rintro _ ⟨⟩⟩
      rintro _ ⟨⟩
      exact ih
  | null => exact ⟨step _ .null (by rintro _ ⟨⟩), by rintro _ ⟨⟩⟩
  | bool b => exact ⟨step _ (.bool b) (by rintro _ ⟨⟩), by rintro _ ⟨⟩⟩
  | number x => exact ⟨step _ (.number x) (by rintro _ ⟨⟩), by rintro _ ⟨⟩⟩
  | string s => exact ⟨step _ (.string s) (by rintro _ ⟨⟩), by rintro _ ⟨⟩⟩

theorem normalAt_node {members : List (String × Json)} {kind : Kind} (known : Bool)
    (h : Members.find? members "type" = some (.string kind.tag)) :
    normalAt known (.object members) =
      .object (members.filterMap (normalMember kind.childKeys)) := by
  have hnode : isNode (.object members) = true := isNode_iff.2 ⟨members, kind.tag, rfl, h⟩
  have hkeys : childKeys (.object members) = kind.childKeys := by rw [childKeys, get?, h]
  rw [normalAt, if_pos hnode, hkeys, normalMembers_eq_filterMap]

end Json

namespace Node

/-! ### The order of filing -/

section Order

variable {kind : Kind} {members : List (String × Json)}

theorem nodup_names_filter (h : (members.map Prod.fst).Nodup) (p : String × Json → Bool) :
    ((members.filter p).map Prod.fst).Nodup :=
  h.sublist (List.filter_sublist.map Prod.fst)

/-- All members but the reserved ones are filed, each of them once. -/
theorem memberOrder_perm (h : (members.map Prod.fst).Nodup) :
    (memberOrder kind members).Perm
      ((members.filter fun m => !reservedNames.contains m.1).map fun m =>
        (kind.childKeys.contains m.1, m)) := by
  have hfree := nodup_names_filter h fun m => !reservedNames.contains m.1
  generalize hms : members.filter (fun m => !reservedNames.contains m.1) = free at hfree
  have hknown := (Members.perm_filterMap_find? kind.nodup_childKeys hfree).map (Prod.mk true)
  have hmap : ((free.filter fun m => kind.childKeys.contains m.1).map (Prod.mk true)) ++
      (free.filter fun m => !kind.childKeys.contains m.1).map (Prod.mk false) =
      ((free.filter fun m => kind.childKeys.contains m.1) ++
        free.filter fun m => !kind.childKeys.contains m.1).map fun m =>
            (kind.childKeys.contains m.1, m) := by
    rw [List.map_append]
    refine congrArg₂ (· ++ ·) (List.map_congr_left fun m hm => ?_)
      (List.map_congr_left fun m hm => ?_)
    · rw [(List.mem_filter.1 hm).2]
    · rw [Bool.not_eq_eq_eq_not.1 (List.mem_filter.1 hm).2]
      rfl
  simp only [memberOrder, hms]
  refine (hknown.append_right _).trans ?_
  rw [hmap]
  exact (List.filter_append_perm _ free).map _

theorem of_mem_memberOrder (h : (members.map Prod.fst).Nodup) {e : Bool × String × Json}
    (he : e ∈ memberOrder kind members) :
    e.2 ∈ members ∧ reservedNames.contains e.2.1 = false ∧ e.1 = kind.childKeys.contains e.2.1 := by
  obtain ⟨m, hm, rfl⟩ := List.mem_map.1 ((memberOrder_perm h).subset he)
  obtain ⟨hmem, hfree⟩ := List.mem_filter.1 hm
  exact ⟨hmem, Bool.not_eq_eq_eq_not.1 hfree, rfl⟩

/-- A map that keeps names keeps the order of filing. -/
theorem memberOrder_filterMap {f : String × Json → Option (String × Json)}
    (hf : ∀ m m', f m = some m' → m'.1 = m.1) (h : (members.map Prod.fst).Nodup) :
    memberOrder kind (members.filterMap f) =
      (memberOrder kind members).filterMap fun e => (f e.2).map (Prod.mk e.1) := by
  have hfilter : ∀ (ms : List (String × Json)) (p : String → Bool),
      (ms.filterMap f).filter (fun m => p m.1) = (ms.filter fun m => p m.1).filterMap f := by
    intro ms p
    rw [List.filter_filterMap, List.filterMap_filter]
    refine List.filterMap_congr fun m _ => ?_
    cases hm : f m with
    | none => simp
    | some m' => simp [Option.filter, hf m m' hm]
  have hfree := nodup_names_filter h fun m => !reservedNames.contains m.1
  simp only [memberOrder, hfilter members fun name => !reservedNames.contains name]
  generalize members.filter (fun m => !reservedNames.contains m.1) = free at hfree
  rw [hfilter free fun name => !kind.childKeys.contains name]
  simp only [Members.find?_filterMap_of_nodup hf hfree, List.filterMap_append, List.filterMap_map,
    List.map_filterMap, List.filterMap_filterMap]
  congr 1
  exact List.filterMap_congr fun key _ => by
    cases List.find? (fun m => m.1 == key) free <;> rfl

end Order

/-! ### What is filed is written as its normal form -/

def Filing.encode? : Filing → Option (String × Json)
  | .dropped => none
  | .field f => some (f.name, encodeSlot f.slot)
  | .attribute name value => some (name, value)

theorem encode?_perm (filings : List Filing) :
    (encodeFields (filings.filterMap Filing.field?) ++ filings.filterMap Filing.attribute?).Perm
      (filings.filterMap Filing.encode?) := by
  rw [encodeFields_eq_map]
  induction filings with
  | nil => exact .nil
  | cons filing filings ih =>
      rcases filing with _ | f | ⟨name, value⟩
      · exact ih
      · exact ih.cons _
      · exact List.perm_middle.trans (ih.cons _)

theorem normalMember_of_free {keys : List String} {name : String}
    (hfree : reservedNames.contains name = false) (v : Json) :
    Json.normalMember keys (name, v) =
      if v.isNull && keys.contains name then
        none
      else some (name, Json.normalAt (keys.contains name) v) := by
  have hloc : name ≠ "loc" := by
    rintro rfl
    cases hfree
  have htype : name ≠ "inferredType" := by
    rintro rfl
    cases hfree
  simp only [Json.normalMember, Json.isDropped, beq_eq_false_iff_ne.2 hloc,
    beq_eq_false_iff_ne.2 htype, Bool.false_or, if_neg hloc, hfree, Bool.false_eq_true, if_false]

/-- A member that is kept is written as it stands. -/
theorem normalMember_keep {keys : List String} {name : String} {v : Json}
    (hfree : reservedNames.contains name = false) (hnode : v.isNode = false)
    (harray : v.shape ≠ .array) (hnull : v.shape = .null → keys.contains name = false) :
    Json.normalMember keys (name, v) = some (name, v) := by
  rw [normalMember_of_free hfree]
  cases v with
  | null =>
      rw [hnull rfl]
      rfl
  | array items => exact absurd rfl harray
  | object members => simp [Json.isNull, Json.normalAt, hnode]
  | _ => rfl

theorem normalMember_node {keys : List String} {name : String} {v : Json}
    (hfree : reservedNames.contains name = false) (hnode : v.isNode = true) :
    Json.normalMember keys (name, v) = some (name, v.normal) := by
  obtain ⟨members, tag, rfl, htype⟩ := Json.isNode_iff.1 hnode
  have htype' : Members.find? members "type" = some (.string (Kind.mk tag).tag) := htype
  rw [normalMember_of_free hfree, Json.normal, Json.normalAt_node _ htype',
    Json.normalAt_node _ htype']
  rfl

theorem normalMember_array {keys : List String} {name : String}
    (hfree : reservedNames.contains name = false) (items : List Json) :
    Json.normalMember keys (name, .array items) =
      some (name, if keys.contains name || items.any Json.isNode then .array
        (Json.normalItems items)
        else .array items) := by
  rw [normalMember_of_free hfree, Json.normalAt]
  rfl

/-- Whatever the value `v` decodes to is written as its normal form. -/
def WrittenNormal (v : Json) : Prop :=
  ∀ n, ofJson v = .ok n → n.encode = v.normal

theorem encodeItems_eq {items : List Json} {places : List (Option Node)}
    (h : List.Forall₂ Places items places) (hitems : ∀ v ∈ items, WrittenNormal v) :
    encodeItems places = Json.normalItems items := by
  induction h with
  | nil => rfl
  | @cons v place items places hplace _ ih =>
      have hrest := ih fun w hw => hitems w (List.mem_cons_of_mem v hw)
      simp only [Json.normalItems]
      by_cases hv : v.isNode = true
      · simp only [Places, hv, if_true] at hplace
        obtain ⟨n, hn, rfl⟩ := hplace
        rw [encodeItems, hrest, hitems v List.mem_cons_self n hn, if_pos hv, Json.normal]
      · simp only [Places, hv, Bool.false_eq_true, if_false] at hplace
        subst hplace
        rw [encodeItems, hrest, if_neg hv]

/-- What is filed of a member is written as the normal form of the member, if this holds of the
nodes in it. -/
theorem Files.encode?_eq {keys : List String} {m : String × Json} {filing : Filing}
    (h : Files (keys.contains m.1) m filing) (hfree : reservedNames.contains m.1 = false)
    (hm : m.2.Holds WrittenNormal) : filing.encode? = Json.normalMember keys m := by
  cases h with
  | drop name hknown =>
      rw [normalMember_of_free hfree, hknown]
      rfl
  | single hnode hn =>
      rw [normalMember_node hfree hnode, ← hm.self _ hn]
      rfl
  | sequence hseq hplaces =>
      rw [normalMember_array hfree, if_pos hseq, ← encodeItems_eq hplaces (hm.items _ rfl)]
      rfl
  | keepArray hseq =>
      rw [normalMember_array hfree, hseq]
      rfl
  | keep hnode harray hnull => exact (normalMember_keep hfree hnode harray hnull).symm

theorem map_encode_of_decodeLocation {kind : Kind} {found : Option Json} {loc : Option Location}
    (h : decodeLocation kind found = .ok loc) (keys : List String) :
    (loc.map fun loc => ("loc", loc.encode)) =
      (found.map (Prod.mk "loc")).bind (Json.normalMember keys) := by
  rcases found with _ | v
  · cases h
    rfl
  · by_cases hnull : v = .null
    · subst hnull
      cases h
      rfl
    · have hdecode : ∃ l, Location.decode v = .ok l ∧ loc = some l := by
        simp only [decodeLocation] at h
        split at h
        next l hdecode =>
          cases h
          exact ⟨_, hdecode, rfl⟩
        next => cases h
      obtain ⟨l, hl, rfl⟩ := hdecode
      have hkeep : v.isNull = false := by
        cases v with
        | null => exact absurd rfl hnull
        | _ => rfl
      simp [Json.normalMember, Json.isDropped, hkeep, Json.normalLoc, hl]

theorem map_filter_isNull (found : Option Json) (keys : List String) :
    ((found.filter fun v => !v.isNull).map (Prod.mk "inferredType")) =
      (found.map (Prod.mk "inferredType")).bind (Json.normalMember keys) := by
  rcases found with _ | v
  · rfl
  · cases hnull : v.isNull with
    | true => simp [Json.normalMember, Json.isDropped, hnull]
    | false => simp [Json.normalMember, Json.isDropped, hnull, reservedNames]

/-- Kind, location and extension are written as the normal forms of the reserved members. -/
theorem Decoded.encode_reserved {members : List (String × Json)} {n : Node} (h : Decoded members n)
    (keys : List String) :
    ("type", .string n.kind.tag) :: (n.loc.map fun loc => ("loc", loc.encode)).toList
        ++ (n.extension.map (Prod.mk "inferredType")).toList =
      (reservedNames.filterMap fun key => List.find? (fun m => m.1 == key) members).filterMap
        (Json.normalMember keys) := by
  rw [List.filterMap_filterMap, map_encode_of_decodeLocation h.loc keys, h.extension,
    map_filter_isNull _ keys]
  simp only [reservedNames, Members.list_find?_eq, h.type, List.filterMap_cons, List.filterMap_nil,
    Option.map_some, Option.bind_some]
  have htype : Json.normalMember keys ("type", .string n.kind.tag) =
      some ("type", .string n.kind.tag) := rfl
  rw [htype]
  cases ((Members.find? members "loc").map (Prod.mk "loc")).bind (Json.normalMember keys) <;>
    cases ((Members.find? members "inferredType").map (Prod.mk "inferredType")).bind
      (Json.normalMember keys) <;> rfl

theorem filterMap_eq_of_forall₂ {α β γ : Type} {R : α → β → Prop} {as : List α} {bs : List β}
    (h : List.Forall₂ R as bs) {f : α → Option γ} {g : β → Option γ}
    (hfg : ∀ a ∈ as, ∀ b, R a b → g b = f a) :
    bs.filterMap g = as.filterMap f := by
  induction h with
  | nil => rfl
  | @cons a b as bs hab _ ih =>
      rw [List.filterMap_cons, List.filterMap_cons, hfg a List.mem_cons_self b hab,
        ih fun a' ha' => hfg a' (List.mem_cons_of_mem a ha')]

/-- Fields and attributes are written as the normal forms of the other members. -/
theorem Decoded.encode_free {members : List (String × Json)} {n : Node} (h : Decoded members n)
    (hnodup : (members.map Prod.fst).Nodup) (hbelow : ∀ m ∈ members, m.2.Holds WrittenNormal) :
    (encodeFields n.fields ++ n.attributes).Perm
      ((members.filter fun m => !reservedNames.contains m.1).filterMap
        (Json.normalMember n.kind.childKeys)) := by
  obtain ⟨filings, hfilings, hfields, hattributes⟩ := h.filings
  have hencode : filings.filterMap Filing.encode? =
      (memberOrder n.kind members).filterMap fun e => Json.normalMember n.kind.childKeys e.2 := by
    refine filterMap_eq_of_forall₂ hfilings fun e he filing hfile => ?_
    obtain ⟨hmem, hfree, hknown⟩ := of_mem_memberOrder hnodup he
    rw [hknown] at hfile
    exact hfile.encode?_eq hfree (hbelow e.2 hmem)
  have hperm : (filings.filterMap Filing.encode?).Perm
      ((members.filter fun m => !reservedNames.contains m.1).filterMap
        (Json.normalMember n.kind.childKeys)) := by
    rw [hencode]
    refine ((memberOrder_perm hnodup).filterMap _).trans (.of_eq ?_)
    rw [List.filterMap_map]
    rfl
  have hall := (encode?_perm filings).trans hperm
  have hnames : ((filings.filterMap Filing.attribute?).map Prod.fst).Nodup := by
    have hnodup' := (hall.map Prod.fst).nodup_iff.2
      ((nodup_names_filter hnodup _).sublist
        (Members.map_fst_filterMap_sublist (fun _ _ => Json.fst_of_normalMember) _))
    rw [List.map_append] at hnodup'
    exact (List.nodup_append.1 hnodup').2.1
  rw [hfields, hattributes]
  exact ((Members.ofList_perm hnames).append_left _).trans hall

theorem encode_eq (n : Node) :
    n.encode = .ofMembers
      (("type", .string n.kind.tag) :: (n.loc.map fun loc => ("loc", loc.encode)).toList
      ++ (n.extension.map (Prod.mk "inferredType")).toList ++
        (encodeFields n.fields ++ n.attributes)) := by
  cases n
  rw [encode, List.append_assoc]

/-- A decoded tree is written as the normal form of the value it was read from. -/
theorem writtenNormal {v : Json} (hv : v.WellFormed) : WrittenNormal v := by
  refine (Json.WellFormed.holds (fun v hv hbelow n h => ?_) hv).self
  obtain ⟨members, rfl, hdecoded⟩ := ofJson_eq_ok_iff.1 h
  have hsorted : Members.Sorted members := by
    cases hv with
    | object hsorted _ => exact hsorted
  have hnodup := hsorted.nodup_names
  have hreserved :
      (reservedNames.filterMap fun key => List.find? (fun m => m.1 == key) members).Perm
      (members.filter fun m => reservedNames.contains m.1) :=
    Members.perm_filterMap_find? (by decide) hnodup
  have hfree := hdecoded.encode_free hnodup (hbelow members rfl)
  rw [encode_eq, hdecoded.encode_reserved n.kind.childKeys, Json.normal,
    Json.normalAt_node false hdecoded.type, Json.ofMembers]
  congr 1
  refine Members.ofList_eq_of_perm ?_ (hsorted.filterMap fun _ _ => Json.fst_of_normalMember)
  refine ((hreserved.filterMap _).append hfree).trans ?_
  rw [← List.filterMap_append]
  exact (List.filter_append_perm _ members).filterMap _

end Node
end Arborist
