import Arborist.Proofs.Positions

/-!
# Values that are no trees

A value is refused for what it is itself: no object, or without a type that is a string.  Otherwise
it is a node, and then nothing but the location of a node can be wrong, its own or that of a node it
holds.  Decoding stops at the first one it comes to, and `failure?_ofJson` says that it comes to the
nodes in the order of `Json.positions`.
-/

namespace Arborist

/-! ### The first that is found -/

section Lists

variable {α β γ : Type}

theorem findSome?_flatMap (as : List α) (f : α → List β) (g : β → Option γ) :
    (as.flatMap f).findSome? g = as.findSome? fun a => (f a).findSome? g := by
  induction as with
  | nil => rfl
  | cons a as ih =>
      rw [List.flatMap_cons, List.findSome?_append, ih, List.findSome?_cons]
      cases (f a).findSome? g <;> rfl

theorem findSome?_congr {f g : α → Option β} {as : List α} (h : ∀ a ∈ as, f a = g a) :
    as.findSome? f = as.findSome? g := by
  induction as with
  | nil => rfl
  | cons a as ih =>
      rw [List.findSome?_cons, List.findSome?_cons, h a List.mem_cons_self,
        ih fun b hb => h b (List.mem_cons_of_mem a hb)]

end Lists

namespace Json

/-! ### Nodes that a value holds -/

/-- A value which is a node holds itself, and what is held by the nodes directly below it: its
members, and the items of its members that are arrays. -/
inductive HoldsNode : Json → Json → Prop
  | self {v : Json} : v.isNode = true → HoldsNode v v
  | member {v child w : Json} {name : String} : v.isNode = true → name ∉ Node.reservedNames →
      v.get? name = some child → HoldsNode child w → HoldsNode v w
  | item {v child w : Json} {name : String} {items : List Json} : v.isNode = true →
      name ∉ Node.reservedNames →
      v.get? name = some (.array items) → child ∈ items → HoldsNode child w → HoldsNode v w

theorem HoldsNode.isNode {v w : Json} (h : v.HoldsNode w) : v.isNode = true := by
  cases h <;> assumption

theorem mem_childMembers_iff {v child : Json} {name : String} :
    (name, child) ∈ v.childMembers ↔ name ∉ Node.reservedNames ∧ v.get? name = some child := by
  have hnames : v.get? name = some child → name ∈ v.names := by
    intro h
    obtain ⟨members, rfl, hmem⟩ := exists_member_of_get? h
    exact List.mem_map_of_mem hmem
  simp only [childMembers, List.mem_filterMap, Option.map_eq_some_iff, Prod.mk.injEq]
  constructor
  · rintro ⟨_, hname, _, hget, rfl, rfl⟩
    exact ⟨by simpa using (List.mem_filter.1 hname).2, hget⟩
  · rintro ⟨hfree, hget⟩
    refine ⟨name, List.mem_filter.2 ⟨?_, by simpa using hfree⟩, child, hget, rfl, rfl⟩
    by_cases hkey : name ∈ v.childKeys
    · exact List.mem_append_left _ hkey
    · apply List.mem_append_right
      rw [List.mem_mergeSort, List.mem_filter]
      exact ⟨hnames hget, by simpa using hkey⟩

theorem mem_map_snd_slotNodes_iff {v child : Json} :
    child ∈ v.slotNodes.map Prod.snd ↔
      child.isNode = true ∧ (child = v ∨ ∃ items, v = .array items ∧ child ∈ items) := by
  by_cases hv : v.isNode = true
  · obtain ⟨members, tag, rfl, -⟩ := isNode_iff.1 hv
    simp only [slotNodes, hv, if_true, List.map_cons, List.map_nil, List.mem_singleton]
    constructor
    · rintro rfl
      exact ⟨hv, .inl rfl⟩
    · rintro ⟨-, rfl | ⟨items, h, -⟩⟩
      · rfl
      · cases h
  · unfold slotNodes
    rw [if_neg hv]
    constructor
    · intro h
      split at h
      next items =>
        rw [List.map_filterMap, List.mem_filterMap] at h
        obtain ⟨⟨w, i⟩, hmem, hw⟩ := h
        by_cases hnode : w.isNode = true
        · simp only [hnode, if_true, Option.map_some, Option.some.injEq] at hw
          subst hw
          exact ⟨hnode, .inr ⟨items, rfl, List.fst_mem_of_mem_zipIdx hmem⟩⟩
        · simp [hnode] at hw
      next => cases h
    · rintro ⟨hnode, rfl | ⟨items, rfl, hmem⟩⟩
      · exact absurd hnode hv
      · obtain ⟨i, hi⟩ := List.mem_iff_getElem?.1 hmem
        rw [List.map_filterMap, List.mem_filterMap]
        exact ⟨(child, i), List.mk_mem_zipIdx_iff_getElem?.2 hi, by simp [hnode]⟩

/-- What is directly below a value, as a member or as an item of one. -/
theorem mem_childNodes_iff {v child : Json} :
    (∃ label, (label, child) ∈ v.childNodes) ↔
      child.isNode = true ∧ ∃ name ∉ Node.reservedNames,
        v.get? name = some child ∨ ∃ items, v.get? name = some (.array items) ∧ child ∈ items := by
  constructor
  · rintro ⟨label, h⟩
    obtain ⟨m, hm, hslot⟩ := List.mem_flatMap.1 h
    obtain ⟨e, he, heq⟩ := List.mem_map.1 hslot
    obtain ⟨hfree, hget⟩ := mem_childMembers_iff.1 hm
    have hchild : child ∈ m.2.slotNodes.map Prod.snd := by
      rw [← (Prod.mk.inj heq).2]
      exact List.mem_map_of_mem he
    obtain ⟨hnode, hself | ⟨items, hitems, hmem⟩⟩ := mem_map_snd_slotNodes_iff.1 hchild
    · exact ⟨hnode, m.1, hfree, .inl (hself ▸ hget)⟩
    · exact ⟨hnode, m.1, hfree, .inr ⟨items, hitems ▸ hget, hmem⟩⟩
  · rintro ⟨hnode, name, hfree, hget⟩
    have hmember : ∃ v', (name, v') ∈ v.childMembers ∧ child ∈ v'.slotNodes.map Prod.snd := by
      rcases hget with hget | ⟨items, hget, hmem⟩
      · exact ⟨child, mem_childMembers_iff.2 ⟨hfree, hget⟩,
          mem_map_snd_slotNodes_iff.2 ⟨hnode, .inl rfl⟩⟩
      · exact ⟨_, mem_childMembers_iff.2 ⟨hfree, hget⟩,
          mem_map_snd_slotNodes_iff.2 ⟨hnode, .inr ⟨items, rfl, hmem⟩⟩⟩
    obtain ⟨v', hmem, hslot⟩ := hmember
    obtain ⟨e, he, rfl⟩ := List.mem_map.1 hslot
    exact ⟨⟨name, e.1⟩, List.mem_flatMap.2 ⟨_, hmem, List.mem_map_of_mem he⟩⟩

theorem isNode_of_mem_childNodes {v : Json} {c : Edge.Label × Json} (h : c ∈ v.childNodes) :
    c.2.isNode = true :=
  (mem_childNodes_iff.1 ⟨c.1, h⟩).1

/-- The nodes at the positions of a value are those that it holds. -/
theorem holdsNode_iff {v w : Json} (hv : v.isNode = true) :
    v.HoldsNode w ↔ w ∈ v.positions.map Prod.snd := by
  constructor
  · intro h
    clear hv
    have below : ∀ {v child w : Json}, (∃ label, (label, child) ∈ v.childNodes) →
        w ∈ child.positions.map Prod.snd → w ∈ v.positions.map Prod.snd := by
      rintro v child _ ⟨label, hchild⟩ hw
      obtain ⟨p, hp, rfl⟩ := List.mem_map.1 hw
      rw [positions_eq]
      apply List.mem_map.2 ⟨(label :: p.1, p.2), List.mem_cons_of_mem _ _, rfl⟩
      exact List.mem_flatMap.2 ⟨_, hchild, List.mem_map_of_mem hp⟩
    induction h with
    | self =>
        rw [positions_eq]
        exact List.mem_cons_self
    | member _ hfree hget hchild ih =>
        exact below (mem_childNodes_iff.2 ⟨hchild.isNode, _, hfree, .inl hget⟩) ih
    | item _ hfree hget hmem hchild ih =>
        exact below (mem_childNodes_iff.2 ⟨hchild.isNode, _, hfree, .inr ⟨_, hget, hmem⟩⟩) ih
  · intro h
    rw [positions_eq, List.map_cons, List.mem_cons] at h
    rcases h with rfl | h
    · exact .self hv
    · obtain ⟨p, hp, rfl⟩ := List.mem_map.1 h
      obtain ⟨c, hc, hpath⟩ := List.mem_flatMap.1 hp
      obtain ⟨q, hq, rfl⟩ := List.mem_map.1 hpath
      have hheld : c.2.HoldsNode q.2 :=
        (holdsNode_iff (isNode_of_mem_childNodes hc)).2 (List.mem_map_of_mem hq)
      obtain ⟨-, name, hfree, hget | ⟨items, hget, hmem⟩⟩ := mem_childNodes_iff.1 ⟨c.1, hc⟩
      · exact .member hv hfree hget hheld
      · exact .item hv hfree hget hmem hheld
termination_by sizeOf v
decreasing_by exact sizeOf_lt_of_follow? (follow?_of_mem_childNodes hc)

theorem childNodes_object {members : List (String × Json)} (hsorted : Members.Sorted members)
    {tag : String} (htype : Members.find? members "type" = some (.string tag)) :
    (object members).childNodes =
      (Node.memberOrder ⟨tag⟩ members).flatMap fun e => e.2.2.slotNodes.map fun s =>
        (⟨e.2.1, s.1⟩, s.2) := by
  rw [childNodes, @childMembers_object members hsorted ⟨tag⟩ htype, List.flatMap_map]

/-! ### Locations that do not decode -/

structure Malformed (v : Json) (tag : String) (fault : Location.Fault) : Prop where
  type : v.get? "type" = some (.string tag)
  loc : ∃ loc, v.get? "loc" = some loc ∧ loc.isNull = false ∧ Location.decode loc = .error fault

def locationError? (v : Json) : Option TreeError :=
  match v.get? "type" with
  | some (.string tag) => failure? (Node.decodeLocation ⟨tag⟩ (v.get? "loc"))
  | _ => none

theorem decodeLocation_eq_error_iff {kind : Kind} {found : Option Json} {e : TreeError} :
    Node.decodeLocation kind found = .error e ↔
      ∃ loc fault, found = some loc ∧ loc.isNull = false ∧ Location.decode loc = .error fault ∧
        e = .location kind.tag fault := by
  constructor
  · intro h
    unfold Node.decodeLocation at h
    split at h
    next => cases h
    next => cases h
    next loc hloc =>
      split at h
      next => cases h
      next fault hfault =>
        refine ⟨loc, fault, rfl, ?_, hfault, (Except.error.inj h).symm⟩
        cases loc with
        | null => exact absurd rfl hloc
        | _ => rfl
  · rintro ⟨loc, fault, rfl, hloc, hfault, rfl⟩
    cases loc with
    | null => cases hloc
    | _ => simp only [Node.decodeLocation, hfault]

theorem locationError?_eq_some_iff {v : Json} {e : TreeError} :
    v.locationError? = some e ↔ ∃ tag fault, v.Malformed tag fault ∧ e = .location tag fault := by
  constructor
  · intro h
    unfold locationError? at h
    split at h
    next tag htype =>
      rw [failure?_eq_some_iff, decodeLocation_eq_error_iff] at h
      obtain ⟨loc, fault, hget, hnull, hfault, rfl⟩ := h
      exact ⟨tag, fault, ⟨htype, loc, hget, hnull, hfault⟩, rfl⟩
    next => cases h
  · rintro ⟨tag, fault, ⟨htype, loc, hget, hnull, hfault⟩, rfl⟩
    simp only [locationError?, htype]
    rw [failure?_eq_some_iff, decodeLocation_eq_error_iff]
    exact ⟨loc, fault, hget, hnull, hfault, rfl⟩

theorem locationError?_eq_none_iff {v : Json} :
    v.locationError? = none ↔ ∀ tag fault, ¬ v.Malformed tag fault := by
  rw [Option.eq_none_iff_forall_not_mem]
  constructor
  · intro h tag fault hmalformed
    exact h _ (locationError?_eq_some_iff.2 ⟨tag, fault, hmalformed, rfl⟩)
  · intro h e he
    obtain ⟨tag, fault, hmalformed, -⟩ := locationError?_eq_some_iff.1 he
    exact h tag fault hmalformed

theorem findSome?_slotNodes_array {γ : Type} (items : List Json) (g : Json → Option γ) :
    (slotNodes (.array items)).findSome? (fun s => g s.2) =
      items.findSome? fun v => if v.isNode then g v else none := by
  have hindexed : ∀ (items : List Json) (k : Nat),
      ((items.zipIdx k).filterMap fun e => if e.1.isNode then some
        (some e.2, e.1) else none).findSome? (fun s => g s.2) =
        items.findSome? fun v => if v.isNode then g v else none := by
    intro items
    induction items with
    | nil => intro k; rfl
    | cons v items ih =>
        intro k
        rw [List.zipIdx_cons, List.filterMap_cons, List.findSome?_cons, ← ih (k + 1)]
        by_cases hv : v.isNode = true
        · simp only [hv, if_true, List.findSome?_cons]
        · simp only [hv, Bool.false_eq_true, if_false]
  exact hindexed items 0

end Json

namespace Node

open Json

/-- Filing a member fails where the first of its nodes does. -/
theorem failure?_file (known : Bool) (m : String × Json) :
    failure? ((Property.ofMember m).file known) =
      m.2.slotNodes.findSome? fun s => failure? (ofJson s.2) := by
  obtain ⟨name, v⟩ := m
  cases v with
  | array items =>
      rw [findSome?_slotNodes_array items fun v => failure? (ofJson v)]
      simp only [Property.file, Property.ofMember, fold_digest_array]
      split
      next =>
        rw [failure?_map, decodeItems_map_ofJson, failure?_mapM]
        apply findSome?_congr
        intro v _
        by_cases hv : v.isNode = true
        · simp only [hv, if_true, failure?_map]
        · simp only [hv, Bool.false_eq_true, if_false]
          rfl
      next hseq =>
        have hnone : ∀ v ∈ items, v.isNode = false := by
          simpa using (Bool.or_eq_false_iff.1 (Bool.eq_false_iff.2 hseq)).2
        symm
        apply List.findSome?_eq_none_iff.2
        intro v hv
        simp [hnone v hv]
  | object members =>
      simp only [Property.file, Property.ofMember, slotNodes]
      split
      · rw [failure?_map, List.findSome?_singleton]
        rfl
      · rfl
  | null => cases known <;> rfl
  | bool b => rfl
  | number n => rfl
  | string s => rfl

theorem failure?_ofJson_object {members : List (String × Json)} (hsorted : Members.Sorted members)
    {tag : String} (htype : Members.find? members "type" = some (.string tag)) :
    failure? (ofJson (.object members)) =
      (object members).locationError?.or ((object members).childNodes.findSome? fun c =>
        failure? (ofJson c.2)) := by
  have hfilings : failure? ((memberOrder ⟨tag⟩ members).mapM fun e =>
      (Property.ofMember e.2).file e.1) =
      (object members).childNodes.findSome? fun c => failure? (ofJson c.2) := by
    rw [failure?_mapM, childNodes_object hsorted htype, findSome?_flatMap]
    apply findSome?_congr
    intro e _
    rw [failure?_file, List.findSome?_map]
    rfl
  have hlocation : (object members).locationError? =
      failure? (decodeLocation ⟨tag⟩ (Members.find? members "loc")) := by
    simp only [locationError?, get?, htype]
  rw [ofJson_object, decodeObject]
  simp only [find?_map_ofMember, filingOrder_map_ofMember, List.mapM_map, htype]
  rw [hlocation, ← hfilings]
  show failure? (decodeLocation ⟨tag⟩ _ >>= _) = _
  cases decodeLocation ⟨tag⟩ (Members.find? members "loc") with
  | error e => rfl
  | ok loc => exact failure?_bind_pure ((memberOrder ⟨tag⟩ members).mapM _) _

/-- Decoding a node stops at the first position whose location does not decode. -/
theorem failure?_ofJson {v : Json} (hv : v.WellFormed) (hnode : v.isNode = true) :
    failure? (ofJson v) = v.positions.findSome? fun p => p.2.locationError? := by
  have hchildren : ∀ c ∈ v.childNodes,
      failure? (ofJson c.2) =
        (c.2.positions.map fun p => (c.1 :: p.1, p.2)).findSome? fun p => p.2.locationError? := by
    intro c hc
    rw [failure?_ofJson (hv.follow? (follow?_of_mem_childNodes hc)) (isNode_of_mem_childNodes hc),
      List.findSome?_map]
    rfl
  have hroot : failure? (ofJson v) =
      v.locationError?.or (v.childNodes.findSome? fun c => failure? (ofJson c.2)) := by
    obtain ⟨members, tag, rfl, htype⟩ := isNode_iff.1 hnode
    cases hv with
    | object hsorted _ => exact failure?_ofJson_object hsorted htype
  rw [hroot, positions_eq, List.findSome?_cons, findSome?_flatMap, findSome?_congr hchildren]
  cases v.locationError? <;> rfl
termination_by sizeOf v
decreasing_by exact sizeOf_lt_of_follow? (follow?_of_mem_childNodes hc)

/-! ### Every error -/

theorem ofJson_of_not_object {v : Json} (h : v.shape ≠ .object) :
    ofJson v = .error (.notAnObject v.shape) := by
  rw [ofJson, Branching.fold_eq]
  cases v with
  | object members => exact absurd rfl h
  | _ => rfl

theorem ofJson_of_decodeKind {members : List (String × Json)} {e : TreeError}
    (h : decodeKind (Members.find? members "type") = .error e) :
    ofJson (.object members) = .error e := by
  rw [ofJson_object, decodeObject]
  simp only [find?_map_ofMember, h]
  rfl

theorem ofJson_of_no_type {v : Json} (hobject : v.shape = .object) (h : v.get? "type" = none) :
    ofJson v = .error .missingType := by
  cases v with
  | object members =>
      apply ofJson_of_decodeKind
      rw [show Members.find? members "type" = none from h]
      rfl
  | _ => cases hobject

theorem ofJson_of_invalid_type {v t : Json} (h : v.get? "type" = some t) (ht : t.shape ≠ .string) :
    ofJson v = .error (.invalidType t.shape) := by
  obtain ⟨members, rfl, -⟩ := exists_member_of_get? h
  apply ofJson_of_decodeKind
  rw [show Members.find? members "type" = some t from h]
  cases t with
  | string s => exact absurd rfl ht
  | _ => rfl

/-- Why a value is no tree.  A value that is a node is refused for the first location in the order
of `positions` that is `Malformed`. -/
inductive Refused (v : Json) : TreeError → Prop
  | notAnObject : v.shape ≠ .object → Refused v (.notAnObject v.shape)
  | missingType : v.shape = .object → v.get? "type" = none → Refused v .missingType
  | invalidType {t : Json} : v.get? "type" = some t → t.shape ≠ .string →
      Refused v (.invalidType t.shape)
  | location {tag : String} {fault : Location.Fault} {before after : List (List Edge.Label × Json)}
      {p : List Edge.Label × Json} :
      v.isNode = true → v.positions = before ++ p :: after → p.2.Malformed tag fault →
      (∀ q ∈ before, ∀ tag fault, ¬ q.2.Malformed tag fault) → Refused v (.location tag fault)

/-- A value is no object, or has no type, or has one that is no string, or is a node. -/
theorem isNode_cases (v : Json) :
    v.shape ≠ .object ∨ (v.shape = .object ∧ v.get? "type" = none) ∨
      (∃ t, v.get? "type" = some t ∧ t.shape ≠ .string) ∨ v.isNode = true := by
  by_cases hobject : v.shape = .object
  · cases htype : v.get? "type" with
    | none => exact .inr (.inl ⟨hobject, rfl⟩)
    | some t =>
        cases t with
        | string tag => exact .inr (.inr (.inr (by simp [isNode, htype])))
        | _ => exact .inr (.inr (.inl ⟨_, rfl, by simp [Json.shape]⟩))
  · exact .inl hobject

theorem ofJson_eq_error_iff_of_isNode {v : Json} (hv : v.WellFormed) (hnode : v.isNode = true)
    {e : TreeError} :
    ofJson v = .error e ↔ ∃ before p after, v.positions = before ++ p :: after ∧
      (∃ tag fault, p.2.Malformed tag fault ∧ e = .location tag fault) ∧
      ∀ q ∈ before, ∀ tag fault, ¬ q.2.Malformed tag fault := by
  rw [← failure?_eq_some_iff, failure?_ofJson hv hnode, List.findSome?_eq_some_iff]
  simp only [locationError?_eq_some_iff, locationError?_eq_none_iff]

/-- Decoding fails with the error for which a value is refused, and with no other. -/
theorem ofJson_eq_error_iff {v : Json} (hv : v.WellFormed) {e : TreeError} :
    ofJson v = .error e ↔ Refused v e := by
  constructor
  · intro h
    rcases isNode_cases v with hshape | ⟨hobject, htype⟩ | ⟨t, htype, ht⟩ | hnode
    · rw [ofJson_of_not_object hshape] at h
      exact Except.error.inj h ▸ .notAnObject hshape
    · rw [ofJson_of_no_type hobject htype] at h
      exact Except.error.inj h ▸ .missingType hobject htype
    · rw [ofJson_of_invalid_type htype ht] at h
      exact Except.error.inj h ▸ .invalidType htype ht
    · obtain ⟨before, p, after, hpositions, ⟨tag, fault, hmalformed, rfl⟩, hbefore⟩ :=
        (ofJson_eq_error_iff_of_isNode hv hnode).1 h
      exact .location hnode hpositions hmalformed hbefore
  · intro h
    cases h with
    | notAnObject hshape => exact ofJson_of_not_object hshape
    | missingType hobject htype => exact ofJson_of_no_type hobject htype
    | invalidType htype ht => exact ofJson_of_invalid_type htype ht
    | location hnode hpositions hmalformed hbefore =>
        exact (ofJson_eq_error_iff_of_isNode hv hnode).2 ⟨_, _, _, hpositions,
          ⟨_, _, hmalformed, rfl⟩, hbefore⟩

/-- A value that is a node fails to decode if it holds a malformed node, however deep. -/
theorem exists_ofJson_eq_error_iff {v : Json} (hv : v.WellFormed) (hnode : v.isNode = true) :
    (∃ e, ofJson v = .error e) ↔ ∃ w, v.HoldsNode w ∧ ∃ tag fault, w.Malformed tag fault := by
  have hfailure : (∃ e, ofJson v = .error e) ↔ (failure? (ofJson v)).isSome := by
    rw [Option.isSome_iff_exists]
    simp only [failure?_eq_some_iff]
  rw [hfailure, failure?_ofJson hv hnode, List.findSome?_isSome_iff]
  simp only [Option.isSome_iff_exists, locationError?_eq_some_iff, holdsNode_iff hnode]
  constructor
  · rintro ⟨p, hp, _, tag, fault, hmalformed, -⟩
    exact ⟨p.2, List.mem_map_of_mem hp, tag, fault, hmalformed⟩
  · rintro ⟨w, hw, tag, fault, hmalformed⟩
    obtain ⟨p, hp, rfl⟩ := List.mem_map.1 hw
    exact ⟨p, hp, _, tag, fault, hmalformed, rfl⟩

/-- Each error has its own cause.  Three of them are about the value itself and its type; if there
is nothing to say against these, decoding fails exactly if the value holds a node, however deep,
whose location does not decode, and then with the tag and the fault of the first one in walking
order. -/
theorem ofJson_fails_exactly {v : Json} (hv : v.WellFormed) :
    (∀ found, ofJson v = .error (.notAnObject found) ↔ v.shape ≠ .object ∧ found = v.shape) ∧
    (ofJson v = .error .missingType ↔ v.shape = .object ∧ v.get? "type" = none) ∧
    (∀ found, ofJson v = .error (.invalidType found) ↔
      ∃ t, v.get? "type" = some t ∧ t.shape ≠ .string ∧ found = t.shape) ∧
    (∀ tag fault, ofJson v = .error (.location tag fault) ↔ v.isNode = true ∧
      ∃ before p after, v.positions = before ++ p :: after ∧ p.2.Malformed tag fault ∧
        ∀ q ∈ before, ∀ tag fault, ¬ q.2.Malformed tag fault) ∧
    (∀ fault, ofJson v ≠ .error (.json fault)) ∧
    (v.isNode = true →
      ((∃ e, ofJson v = .error e) ↔ ∃ w, v.HoldsNode w ∧ ∃ tag fault, w.Malformed tag fault)) := by
  simp only [ne_eq, ofJson_eq_error_iff hv]
  refine ⟨fun found => ⟨?_, ?_⟩, ⟨?_, ?_⟩, fun found => ⟨?_, ?_⟩, fun tag fault => ⟨?_, ?_⟩, ?_, ?_⟩
  · intro h
    cases h with
    | notAnObject hshape => exact ⟨hshape, rfl⟩
  · rintro ⟨hshape, rfl⟩
    exact .notAnObject hshape
  · intro h
    cases h with
    | missingType hobject htype => exact ⟨hobject, htype⟩
  · rintro ⟨hobject, htype⟩
    exact .missingType hobject htype
  · intro h
    cases h with
    | invalidType htype ht => exact ⟨_, htype, ht, rfl⟩
  · rintro ⟨t, htype, ht, rfl⟩
    exact .invalidType htype ht
  · intro h
    cases h with
    | location hnode hpositions hmalformed hbefore =>
        exact ⟨hnode, _, _, _, hpositions, hmalformed, hbefore⟩
  · rintro ⟨hnode, before, p, after, hpositions, hmalformed, hbefore⟩
    exact .location hnode hpositions hmalformed hbefore
  · intro fault h
    cases h
  · intro hnode
    simp only [← ofJson_eq_error_iff hv]
    exact exists_ofJson_eq_error_iff hv hnode

end Node

def unplacedName : Json :=
  .object [("loc", .object [("start", .array [])]), ("type", .string "Identifier")]

def unplacedMark : Json :=
  .object [("loc", .bool true), ("type", .string "Mark")]

def unplacedOperand : Json :=
  .object [("argument", unplacedName), ("type", .string "UnaryExpression")]

/-- A binary expression with two malformed nodes, `unplacedOperand` and `unplacedMark`.  By name the
mark comes first, but the left side is a child property. -/
def unplacedSum : Json :=
  .object [("aside", unplacedMark), ("left", unplacedOperand), ("type", .string "BinaryExpression")]

theorem wellFormed_unplacedSum : unplacedSum.WellFormed := by
  have hname : unplacedName.WellFormed := by
    apply Json.WellFormed.object (by decide)
    simpa using ⟨.object (List.pairwise_singleton _ _) (by simpa using .array (by simp)), .string _⟩
  have hmark : unplacedMark.WellFormed := by
    apply Json.WellFormed.object (by decide)
    simpa using ⟨.bool _, .string _⟩
  have hoperand : unplacedOperand.WellFormed := by
    apply Json.WellFormed.object (by decide)
    simpa using ⟨hname, .string _⟩
  apply Json.WellFormed.object (by decide)
  simpa using ⟨hmark, hoperand, .string _⟩

theorem positions_unplacedSum :
    unplacedSum.positions = [([], unplacedSum), ([⟨"left", none⟩], unplacedOperand),
      ([⟨"left", none⟩, ⟨"argument", none⟩], unplacedName), ([⟨"aside", none⟩], unplacedMark)] := by
  have hname : unplacedName.positions = [([], unplacedName)] := by
    rw [Json.positions_eq, unplacedName, Json.childNodes_object (by decide) rfl]
    rfl
  have hmark : unplacedMark.positions = [([], unplacedMark)] := by
    rw [Json.positions_eq, unplacedMark, Json.childNodes_object (by decide) rfl]
    rfl
  have hoperand : unplacedOperand.childNodes = [(⟨"argument", none⟩, unplacedName)] := by
    rw [unplacedOperand, Json.childNodes_object (by decide) rfl]
    rfl
  have hsum : unplacedSum.childNodes =
      [(⟨"left", none⟩, unplacedOperand), (⟨"aside", none⟩, unplacedMark)] := by
    rw [unplacedSum, Json.childNodes_object (by decide) rfl]
    rfl
  rw [Json.positions_eq, hsum]
  simp only [List.flatMap_cons, List.flatMap_nil, hmark]
  rw [Json.positions_eq unplacedOperand, hoperand]
  simp only [List.flatMap_cons, List.flatMap_nil, hname]
  rfl

theorem ofJson_fails_exactly_unplacedSum :
    unplacedSum.WellFormed ∧ unplacedSum.isNode = true ∧
      Node.ofJson unplacedSum = .error (.location "Identifier" .emptyPoint) ∧
      ∃ w, unplacedSum.HoldsNode w ∧ ∃ tag fault, w.Malformed tag fault := by
  obtain ⟨-, -, -, hfirst, -, hsome⟩ := Node.ofJson_fails_exactly wellFormed_unplacedSum
  have herror : Node.ofJson unplacedSum = .error (.location "Identifier" .emptyPoint) := by
    rw [hfirst]
    refine ⟨rfl, [([], unplacedSum), ([⟨"left", none⟩], unplacedOperand)], _, _,
      positions_unplacedSum,
      ⟨rfl, _, rfl, rfl, rfl⟩, ?_⟩
    intro q hq tag fault hmalformed
    obtain ⟨loc, hloc, -⟩ := hmalformed.loc
    simp only [List.mem_cons, List.not_mem_nil, or_false] at hq
    rcases hq with rfl | rfl
    · cases hloc
    · cases hloc
  exact ⟨wellFormed_unplacedSum, rfl, herror, (hsome rfl).1 ⟨_, herror⟩⟩

end Arborist
