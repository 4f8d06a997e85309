import Arborist.Proofs.Encoding

/-!
# Reading what was written

A tree that was read from a value and written back is read again as the same tree.  It is written as
the normal form of the value, so that it is enough to read the normal form: the normal form of a
member is filed as the member is, and the members without one are those that were dropped.
-/

namespace Arborist

namespace Node

/-- Whatever the value `v` decodes to, its normal form decodes to as well. -/
def ReadNormal (v : Json) : Prop :=
  ∀ n, ofJson v = .ok n → ofJson v.normal = .ok n

theorem isNode_of_ofJson {v : Json} {n : Node} (h : ofJson v = .ok n) : v.isNode = true := by
  obtain ⟨members, rfl, hdecoded⟩ := ofJson_eq_ok_iff.1 h
  exact Json.isNode_iff.2 ⟨members, _, rfl, hdecoded.type⟩

theorem any_isNode_of_places {items : List Json} {places : List (Option Node)}
    (h : List.Forall₂ Places items places) :
    items.any Json.isNode = places.any Option.isSome := by
  induction h with
  | nil => rfl
  | @cons v place items places hplace _ ih =>
      rw [List.any_cons, List.any_cons, ih]
      by_cases hv : v.isNode = true
      · simp only [Places, hv, if_true] at hplace
        obtain ⟨n, -, rfl⟩ := hplace
        rw [hv]
        rfl
      · simp only [Places, hv, Bool.false_eq_true, if_false] at hplace
        rw [hplace, Bool.eq_false_iff.2 hv]
        rfl

theorem places_normalItems {items : List Json} {places : List (Option Node)}
    (h : List.Forall₂ Places items places)
    (hitems : ∀ v ∈ items, ReadNormal v) : List.Forall₂ Places (Json.normalItems items) places := by
  induction h with
  | nil => exact .nil
  | @cons v place items places hplace _ ih =>
      refine .cons ?_ (ih fun w hw => hitems w (List.mem_cons_of_mem v hw))
      by_cases hv : v.isNode = true
      · simp only [Places, hv, if_true] at hplace
        obtain ⟨n, hn, rfl⟩ := hplace
        have hread : ofJson v.normal = .ok n := hitems v List.mem_cons_self n hn
        rw [if_pos hv]
        show Places v.normal (some n)
        rw [Places, if_pos (isNode_of_ofJson hread)]
        exact ⟨n, hread, rfl⟩
      · simp only [Places, hv, Bool.false_eq_true, if_false] at hplace
        rw [if_neg hv, hplace]
        rfl

/-- The normal form of a member is filed as the member is, and a member without one is dropped. -/
theorem Files.normalMember {keys : List String} {m : String × Json} {filing : Filing}
    (h : Files (keys.contains m.1) m filing) (hfree : reservedNames.contains m.1 = false)
    (hm : m.2.Holds ReadNormal) :
    Json.normalMember keys m = none ∧ filing = .dropped ∨
      ∃ m', Json.normalMember keys m = some m' ∧ Files (keys.contains m.1) m' filing := by
  cases h with
  | drop name hknown =>
      refine .inl ⟨?_, rfl⟩
      rw [normalMember_of_free hfree, hknown]
      rfl
  | single hnode hn =>
      have hread := hm.self _ hn
      exact .inr ⟨_, normalMember_node hfree hnode, .single (isNode_of_ofJson hread) hread⟩
  | sequence hseq hplaces =>
      have hplaces' := places_normalItems hplaces (hm.items _ rfl)
      refine .inr ⟨_, normalMember_array hfree _, ?_⟩
      rw [if_pos hseq]
      refine .sequence ?_ hplaces'
      rwa [any_isNode_of_places hplaces', ← any_isNode_of_places hplaces]
  | keepArray hseq =>
      refine .inr ⟨_, normalMember_array hfree _, ?_⟩
      rw [if_neg (Bool.eq_false_iff.1 hseq)]
      exact .keepArray hseq
  | keep hnode harray hnull =>
      exact .inr ⟨_, normalMember_keep hfree hnode harray hnull, .keep hnode harray hnull⟩

/-- The filings of the normal forms differ from those of the members in what is dropped. -/
theorem exists_filings_normal (keys : List String) {es : List (Bool × String × Json)}
    {filings : List Filing} (h : List.Forall₂ (fun e filing => Files e.1 e.2 filing) es filings)
    (hes : ∀ e ∈ es, e.2.2.Holds ReadNormal ∧ reservedNames.contains e.2.1 = false ∧
      e.1 = keys.contains e.2.1) :
    ∃ filings', List.Forall₂ (fun e filing => Files e.1 e.2 filing)
        (es.filterMap fun e => (Json.normalMember keys e.2).map (Prod.mk e.1)) filings' ∧
      filings'.filterMap Filing.field? = filings.filterMap Filing.field? ∧
      filings'.filterMap Filing.attribute? = filings.filterMap Filing.attribute? := by
  induction h with
  | nil => exact ⟨[], .nil, rfl, rfl⟩
  | @cons e filing es filings hfile _ ih =>
      obtain ⟨filings', hfilings', hfields, hattributes⟩ :=
        ih fun e' he' => hes e' (List.mem_cons_of_mem e he')
      obtain ⟨hread, hfree, hknown⟩ := hes e List.mem_cons_self
      rw [hknown] at hfile
      rcases hfile.normalMember hfree hread with ⟨hnone, rfl⟩ | ⟨m', hsome, hfile'⟩
      · refine ⟨filings', ?_, hfields, hattributes⟩
        rw [List.filterMap_cons, hnone]
        exact hfilings'
      · refine ⟨filing :: filings', ?_, ?_, ?_⟩
        · rw [List.filterMap_cons, hsome, hknown]
          exact .cons hfile' hfilings'
        · rw [List.filterMap_cons, List.filterMap_cons, hfields]
        · rw [List.filterMap_cons, List.filterMap_cons, hattributes]

theorem find?_normal {members : List (String × Json)} (hnodup : (members.map Prod.fst).Nodup)
    (keys : List String) (name : String) :
    Members.find? (members.filterMap (Json.normalMember keys)) name =
      (((Members.find? members name).map (Prod.mk name)).bind (Json.normalMember keys)).map
        Prod.snd := by
  rw [Members.find?_eq_map, Members.find?_filterMap_of_nodup
    (fun _ _ => Json.fst_of_normalMember) hnodup, Members.list_find?_eq]

theorem decodeLocation_encode {kind : Kind} {found : Option Json} {loc : Option Location}
    (h : decodeLocation kind found = .ok loc) :
    decodeLocation kind (loc.map Location.encode) = .ok loc := by
  rcases loc with _ | loc
  · rfl
  · have hdecode : ∃ v, Location.decode v = .ok loc := by
      unfold decodeLocation at h
      split at h
      · cases h
      · cases h
      · split at h
        next l hdecode =>
          cases h
          exact ⟨_, hdecode⟩
        next => cases h
    obtain ⟨v, hv⟩ := hdecode
    have hnull : loc.encode ≠ .null := by simp [Location.encode]
    rw [Option.map_some, decodeLocation, Location.decode_encode hv]
    exact hnull

/-- The normal forms of the members of a node are the members of the same node. -/
theorem Decoded.normal {members : List (String × Json)} {n : Node} (h : Decoded members n)
    (hnodup : (members.map Prod.fst).Nodup) (hbelow : ∀ m ∈ members, m.2.Holds ReadNormal) :
    Decoded (members.filterMap (Json.normalMember n.kind.childKeys)) n := by
  obtain ⟨filings, hfilings, hfields, hattributes⟩ := h.filings
  obtain ⟨filings', hfilings', hfields', hattributes'⟩ :=
    exists_filings_normal n.kind.childKeys hfilings
    fun e he => by
      obtain ⟨hmem, hfree, hknown⟩ := of_mem_memberOrder hnodup he
      exact ⟨hbelow e.2 hmem, hfree, hknown⟩
  refine ⟨?_, ?_, ⟨filings', ?_, hfields.trans hfields'.symm, ?_⟩, ?_⟩
  · rw [find?_normal hnodup, h.type]
    rfl
  · rw [find?_normal hnodup, ← map_encode_of_decodeLocation h.loc, Option.map_map]
    exact decodeLocation_encode h.loc
  · rw [memberOrder_filterMap (fun _ _ => Json.fst_of_normalMember) hnodup]
    exact hfilings'
  · rw [hattributes, hattributes']
  · rw [find?_normal hnodup, ← map_filter_isNull, ← h.extension, Option.map_map, h.extension]
    show _ = ((Option.filter _ _).map id).filter _
    rw [Option.map_id, id, Option.filter_filter]
    simp

theorem readNormal {v : Json} (hv : v.WellFormed) : ReadNormal v := by
  refine (Json.WellFormed.holds (fun v hv hbelow n h => ?_) hv).self
  obtain ⟨members, rfl, hdecoded⟩ := ofJson_eq_ok_iff.1 h
  have hsorted : Members.Sorted members := by
    cases hv with
    | object hsorted _ => exact hsorted
  rw [Json.normal, Json.normalAt_node false hdecoded.type]
  exact ofJson_eq_ok_iff.2 ⟨_, rfl, hdecoded.normal hsorted.nodup_names (hbelow members rfl)⟩

/-! ### Well-formed normal forms -/

def NormalWellFormed (v : Json) : Prop :=
  v.isNode = true → v.normal.WellFormed

theorem wellFormed_normalAt {v : Json} (hv : v.WellFormed) (h : v.Holds NormalWellFormed)
    (known : Bool) :
    (v.normalAt known).WellFormed := by
  cases v with
  | array items =>
      rw [Json.normalAt]
      split
      · rw [Json.normalItems_eq_map]
        refine .array fun w hw => ?_
        obtain ⟨item, hitem, rfl⟩ := List.mem_map.1 hw
        split
        next hnode => exact h.items items rfl item hitem hnode
        next => exact .null
      · exact hv
  | object members =>
      by_cases hnode : (Json.object members).isNode = true
      · have hself := h.self hnode
        rw [Json.normal, Json.normalAt, if_pos hnode] at hself
        rwa [Json.normalAt, if_pos hnode]
      · rwa [Json.normalAt, if_neg hnode]
  | _ => exact hv

theorem wellFormed_normalMember {keys : List String} {m m' : String × Json} (hm : m.2.WellFormed)
    (h : m.2.Holds NormalWellFormed) (hnormal : Json.normalMember keys m = some m') :
    m'.2.WellFormed := by
  obtain ⟨name, v⟩ := m
  simp only [Json.normalMember] at hnormal
  split_ifs at hnormal
  · cases hnormal
    show (Json.normalLoc v).WellFormed
    rw [Json.normalLoc]
    split
    · exact Location.wellFormed_encode _
    · exact hm
  · cases hnormal
    exact hm
  · cases hnormal
    exact wellFormed_normalAt hm h _

theorem normalWellFormed {v : Json} (hv : v.WellFormed) : NormalWellFormed v := by
  refine (Json.WellFormed.holds (fun v hv hbelow hnode => ?_) hv).self
  cases hv with
  | @object members hsorted hmembers =>
      rw [Json.normal, Json.normalAt, if_pos hnode, Json.normalMembers_eq_filterMap]
      refine .object (hsorted.filterMap fun _ _ => Json.fst_of_normalMember) fun m' hm' => ?_
      obtain ⟨m, hm, hnormal⟩ := List.mem_filterMap.1 hm'
      exact wellFormed_normalMember (hmembers m hm) (hbelow members rfl m hm) hnormal
  | _ => cases hnode

end Node

/-- A tree read from a value is written as the normal form of the value, and what is written is read
as the same tree. -/
theorem encode_lossless {v : Json} (hv : v.WellFormed) {n : Node} (h : Node.ofJson v = .ok n) :
    Node.ofJson n.encode = .ok n ∧ n.encode = v.normal ∧ n.encode.WellFormed := by
  have hencode : n.encode = v.normal := Node.writtenNormal hv n h
  rw [hencode]
  exact ⟨Node.readNormal hv n h, rfl, Node.normalWellFormed hv (Node.isNode_of_ofJson h)⟩

/-- A call with a missing callee, numbers and nodes side by side in its arguments and under a name
that calls do not have, and a location given by position. -/
def untidyCall : Json :=
  .object [("arguments", .array [.ofNat 1, .object [("type", .string "Mark")]]), ("callee", .null),
    ("inferredType", .null), ("loc", .array [.array [.ofNat 3]]),
    ("marks", .array [.object [("type", .string "Mark")], .bool true]), ("optional", .bool true),
    ("type", .string "CallExpression")]

def untidyCallNode : Node :=
  ⟨.callExpression, some ⟨some ⟨3, none⟩, none, none⟩,
    [⟨"arguments", .sequence [none, some (.ofKind ⟨"Mark"⟩)]⟩,
      ⟨"marks", .sequence [some (.ofKind ⟨"Mark"⟩), none]⟩],
    [("optional", .bool true)], none⟩

theorem wellFormed_untidyCall : untidyCall.WellFormed := by
  have hmark : (Json.object [("type", .string "Mark")]).WellFormed :=
    .object (List.pairwise_singleton _ _) (by simpa using .string "Mark")
  refine .object (show ["arguments", "callee", "inferredType", "loc", "marks", "optional",
    "type"].Pairwise (· < ·)
    by decide) ?_
  simp only [List.forall_mem_cons, List.not_mem_nil, false_imp_iff, implies_true, and_true]
  refine ⟨.array ?_, .null, .null, .array ?_, .array ?_, .bool _, .string _⟩
  · simpa using ⟨.number _, hmark⟩
  · simpa using .array (by simpa using .number _)
  · simpa using ⟨hmark, .bool true⟩

theorem ofJson_untidyCall : Node.ofJson untidyCall = .ok untidyCallNode := by
  have hmark : Node.ofJson (.object [("type", .string "Mark")]) = .ok (.ofKind ⟨"Mark"⟩) :=
    Node.ofJson_type ⟨"Mark"⟩
  have hattributes : Members.ofList [("optional", Json.bool true)] = [("optional", .bool true)] :=
    Members.ofList_eq_of_perm (.refl _) (List.pairwise_singleton _ _)
  refine Node.ofJson_eq_ok_iff.2 ⟨_, rfl, rfl, rfl, ⟨[.dropped,
    .field ⟨"arguments", .sequence [none, some (.ofKind ⟨"Mark"⟩)]⟩,
    .field ⟨"marks", .sequence [some (.ofKind ⟨"Mark"⟩), none]⟩,
      .attribute "optional" (.bool true)], ?_, rfl,
    hattributes.symm⟩, rfl⟩
  refine .cons (.drop _ rfl) (.cons (.sequence rfl (.cons rfl (.cons ⟨_, hmark, rfl⟩ .nil)))
    (.cons (.sequence rfl (.cons ⟨_, hmark, rfl⟩ (.cons rfl .nil))) (.cons (.keep rfl ?_ ?_) .nil)))
  · simp [Json.shape]
  · simp [Json.shape]

theorem encode_lossless_untidyCall :
    untidyCall.WellFormed ∧ Node.ofJson untidyCall = .ok untidyCallNode ∧
      Node.ofJson untidyCallNode.encode = .ok untidyCallNode ∧
        untidyCallNode.encode = untidyCall.normal ∧
      untidyCallNode.encode.WellFormed :=
  ⟨wellFormed_untidyCall, ofJson_untidyCall,
    encode_lossless wellFormed_untidyCall ofJson_untidyCall⟩

end Arborist
