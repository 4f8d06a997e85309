import Arborist.Proofs.Failing
import Arborist.Tree.Decode
import Mathlib.Data.List.Forall2

/-!
# Decoding as a recursion

Decoding is a fold, so that it works at any depth.  Here it is read as the recursion that it
computes: an object is decoded from its members, and a member is filed by decoding what is a node in
it.  `Files` says what filing can do, and `ofJson_eq_ok_iff` which node a value decodes to; no later
proof looks into the fold.
-/

namespace Arborist

/-! ### Lists side by side -/

section Lists

variable {α β γ δ : Type} {R : α → β → Prop} {S : γ → δ → Prop}

theorem exists_mem_of_forall₂ {as : List α} {bs : List β} (h : List.Forall₂ R as bs) {a : α}
    (ha : a ∈ as) :
    ∃ b ∈ bs, R a b := by
  induction h with
  | nil => cases ha
  | cons hab _ ih =>
      rcases List.mem_cons.1 ha with rfl | ha
      · exact ⟨_, List.mem_cons_self, hab⟩
      · obtain ⟨b, hb, hR⟩ := ih ha
        exact ⟨b, List.mem_cons_of_mem _ hb, hR⟩

theorem exists_append_of_forall₂ {as as' : List α} {bs : List β}
    (h : List.Forall₂ R (as ++ as') bs) :
    ∃ cs cs', bs = cs ++ cs' ∧ List.Forall₂ R as cs ∧ List.Forall₂ R as' cs' := by
  induction as generalizing bs with
  | nil => exact ⟨[], bs, rfl, .nil, h⟩
  | cons a as ih =>
      obtain ⟨b, bs', hab, hrest, rfl⟩ := List.forall₂_cons_left_iff.1 h
      obtain ⟨cs, cs', rfl, hcs, hcs'⟩ := ih hrest
      exact ⟨b :: cs, cs', rfl, .cons hab hcs, hcs'⟩

theorem forall₂_flatMap {as : List α} {bs : List β} (h : List.Forall₂ R as bs) {f : α → List γ}
    {g : β → List δ} (hfg : ∀ a ∈ as, ∀ b ∈ bs, R a b → List.Forall₂ S (f a) (g b)) :
    List.Forall₂ S (as.flatMap f) (bs.flatMap g) := by
  induction h with
  | nil => exact .nil
  | cons hab _ ih =>
      refine List.rel_append (hfg _ List.mem_cons_self _ List.mem_cons_self hab)
        (ih fun a ha b hb => ?_)
      exact hfg a (List.mem_cons_of_mem _ ha) b (List.mem_cons_of_mem _ hb)

theorem forall₂_zipIdx {number : α → Nat} {as : List α} {bs : List β}
    (h : List.Forall₂ R as bs) {k : Nat} (hnumber : as.map number = List.range' k as.length) :
    List.Forall₂ (fun a b => R a b.1 ∧ number a = b.2) as (bs.zipIdx k) := by
  induction h generalizing k with
  | nil => exact .nil
  | cons hab _ ih =>
      rw [List.map_cons, List.length_cons, List.range'_succ] at hnumber
      obtain ⟨hfirst, hrest⟩ := List.cons.inj hnumber
      exact .cons ⟨hab, hfirst⟩ (ih hrest)

end Lists

theorem Members.ofList_nil {α : Type} : Members.ofList ([] : List (String × α)) = [] := by
  simp [Members.ofList]

namespace Json

theorem isNode_iff {v : Json} :
    v.isNode = true ↔ ∃ members tag, v = .object members ∧
      Members.find? members "type" = some (.string tag) := by
  constructor
  · intro h
    cases v with
    | object members =>
        simp only [isNode, get?] at h
        split at h
        next tag htag =>
          exact ⟨members, tag, rfl, htag⟩
        next => cases h
    | _ => cases h
  · rintro ⟨members, tag, rfl, htag⟩
    simp [isNode, get?, htag]

def slotNodes (v : Json) : List (Option Nat × Json) :=
  if v.isNode then [(none, v)]
  else
    match v with
    | .array items =>
        items.zipIdx.filterMap fun e => if e.1.isNode then some (some e.2, e.1) else none
    | _ => []

end Json

namespace Node

def Property.ofMember (m : String × Json) : Property := ⟨m.1, m.2, Branching.fold Node.digest m.2⟩

/-- The members to be filed, those of the child properties of the `kind` first and in its order.  It
is the `filingOrder` of the members (`filingOrder_map_ofMember`). -/
def memberOrder (kind : Kind) (members : List (String × Json)) : List (Bool × String × Json) :=
  let free := members.filter fun m => !reservedNames.contains m.1
  let known := kind.childKeys.filterMap fun key => free.find? fun m => m.1 == key
  let others := free.filter fun m => !kind.childKeys.contains m.1
  known.map (true, ·) ++ others.map (false, ·)

def Places (v : Json) (place : Option Node) : Prop :=
  if v.isNode then ∃ n, ofJson v = .ok n ∧ place = some n else place = none

/-- Where a member goes; `known` says whether its name is a child property of the kind.  There is
one rule for each branch of `Property.file`. -/
inductive Files (known : Bool) : String × Json → Filing → Prop
  | drop (name : String) : known = true → Files known (name, .null) .dropped
  | single {name : String} {v : Json} {n : Node} :
      v.isNode = true → ofJson v = .ok n → Files known (name, v) (.field ⟨name, .single n⟩)
  | sequence {name : String} {items : List Json} {places : List (Option Node)} :
      (known || items.any Json.isNode) = true → List.Forall₂ Places items places →
        Files known (name, .array items) (.field ⟨name, .sequence places⟩)
  | keepArray {name : String} {items : List Json} :
      (known || items.any Json.isNode) = false →
        Files known (name, .array items) (.attribute name (.array items))
  | keep {name : String} {v : Json} :
      v.isNode = false → v.shape ≠ .array → (v.shape = .null → known = false) →
        Files known (name, v) (.attribute name v)

theorem fold_digest_array (items : List Json) :
    Branching.fold digest (.array items) = ⟨.error (.notAnObject .array), items.map ofJson⟩ := by
  rw [Branching.fold_eq]
  show Digest.mk _ ((items.map (Branching.fold digest)).map Digest.node) = _
  rw [List.map_map]
  rfl

theorem ofJson_object (members : List (String × Json)) :
    ofJson (.object members) = decodeObject (members.map Property.ofMember) := by
  have hzip : List.zipWith (fun m d => (⟨m.1, m.2, d⟩ : Property)) members
      ((members.map Prod.snd).map (Branching.fold digest)) = members.map Property.ofMember := by
    rw [List.map_map, List.zipWith_map_right, List.zipWith_self]
    rfl
  rw [ofJson, Branching.fold_eq]
  show decodeObject (List.zipWith (fun m d => (⟨m.1, m.2, d⟩ : Property)) members
    ((members.map Prod.snd).map (Branching.fold digest))) = _
  rw [hzip]

/-- Only objects are nodes. -/
theorem exists_members_of_ofJson {v : Json} {n : Node} (h : ofJson v = .ok n) :
    ∃ members, v = .object members := by
  rw [ofJson, Branching.fold_eq] at h
  cases v with
  | object members => exact ⟨members, rfl⟩
  | _ => cases h

theorem find?_map_ofMember (members : List (String × Json)) (name : String) :
    ((members.map Property.ofMember).find? fun p => p.name == name).map Property.value =
      Members.find? members name := by
  induction members with
  | nil => rfl
  | cons m members ih =>
      rw [List.map_cons, Members.find?_cons, List.find?_cons]
      by_cases hname : m.1 = name
      · subst hname
        simp [Property.ofMember]
      · have hleft : ((Property.ofMember m).name == name) = false := beq_eq_false_iff_ne.2 hname
        have hright : (name == m.1) = false := beq_eq_false_iff_ne.2 (Ne.symm hname)
        rw [hleft, hright, ih]
        rfl

theorem filingOrder_map_ofMember (kind : Kind) (members : List (String × Json)) :
    filingOrder kind (members.map Property.ofMember) =
      (memberOrder kind members).map fun e => (e.1, Property.ofMember e.2) := by
  simp only [filingOrder, memberOrder, List.filter_map, List.map_append, List.map_map,
    List.find?_map, List.map_filterMap, Option.map_map]
  rfl

theorem decodeItems_map_ofJson (items : List Json) :
    decodeItems items (items.map ofJson) =
      items.mapM fun v => if v.isNode then (ofJson v).map some else .ok none := by
  have hzip : items.zip (items.map ofJson) = items.map fun v => (v, ofJson v) := by
    rw [List.zip_eq_zipWith, List.zipWith_map_right, List.zipWith_self]
  rw [decodeItems, hzip, List.mapM_map]
  rfl

theorem decodeItems_eq_ok_iff {items : List Json} {places : List (Option Node)} :
    decodeItems items (items.map ofJson) = .ok places ↔ List.Forall₂ Places items places := by
  have hplace : ∀ (v : Json) (place : Option Node),
      (if v.isNode then (ofJson v).map some else .ok none) = .ok place ↔ Places v place := by
    intro v place
    by_cases hv : v.isNode = true
    · simp only [hv, if_true, Places, map_eq_ok_iff]
      exact exists_congr fun n => and_congr_right fun _ => eq_comm
    · simp only [hv, Places, Bool.false_eq_true, if_false]
      exact ⟨fun h => (Except.ok.inj h).symm, fun h => h ▸ rfl⟩
  rw [decodeItems_map_ofJson, mapM_eq_ok_iff]
  constructor
  · exact List.Forall₂.imp fun v place => (hplace v place).1
  · exact List.Forall₂.imp fun v place => (hplace v place).2

theorem Files.of_file {known : Bool} {name : String} {v : Json} {filing : Filing}
    (h : (Property.ofMember (name, v)).file known = .ok filing) : Files known (name, v) filing := by
  cases v with
  | null =>
      cases known with
      | true =>
          cases h
          exact .drop name rfl
      | false =>
          cases h
          exact .keep rfl (by decide) fun _ => rfl
  | bool b =>
      cases h
      exact .keep rfl (by simp [Json.shape]) (by simp [Json.shape])
  | number x =>
      cases h
      exact .keep rfl (by simp [Json.shape]) (by simp [Json.shape])
  | string s =>
      cases h
      exact .keep rfl (by simp [Json.shape]) (by simp [Json.shape])
  | array items =>
      simp only [Property.file, Property.ofMember, fold_digest_array] at h
      split at h
      next hseq =>
        obtain ⟨places, hplaces, rfl⟩ := map_eq_ok_iff.1 h
        exact .sequence hseq (decodeItems_eq_ok_iff.1 hplaces)
      next hseq =>
        cases h
        exact .keepArray (Bool.eq_false_iff.2 hseq)
  | object members =>
      simp only [Property.file, Property.ofMember] at h
      split at h
      next hnode =>
        obtain ⟨n, hn, rfl⟩ := map_eq_ok_iff.1 h
        exact .single hnode hn
      next hnode =>
        cases h
        exact .keep (Bool.eq_false_iff.2 hnode) (by simp [Json.shape]) (by simp [Json.shape])

theorem Files.file_eq_ok {known : Bool} {name : String} {v : Json} {filing : Filing}
    (h : Files known (name, v) filing) : (Property.ofMember (name, v)).file known = .ok filing := by
  cases h with
  | drop _ hknown =>
      subst hknown
      rfl
  | single hnode hn =>
      obtain ⟨members, tag, rfl, -⟩ := Json.isNode_iff.1 hnode
      simp only [Property.file, Property.ofMember, hnode, if_true]
      exact map_eq_ok_iff.2 ⟨_, hn, rfl⟩
  | sequence hseq hplaces =>
      simp only [Property.file, Property.ofMember, fold_digest_array, hseq, if_true]
      exact map_eq_ok_iff.2 ⟨_, decodeItems_eq_ok_iff.2 hplaces, rfl⟩
  | keepArray hseq => simp [Property.file, Property.ofMember, hseq]
  | keep hnode harray hnull =>
      cases v with
      | null => simp [Property.file, Property.ofMember, hnull rfl]
      | array items => exact absurd rfl harray
      | bool b => rfl
      | number x => rfl
      | string s => rfl
      | object members => simp [Property.file, Property.ofMember, hnode]

theorem file_ofMember_eq_ok_iff {known : Bool} {m : String × Json} {filing : Filing} :
    (Property.ofMember m).file known = .ok filing ↔ Files known m filing :=
  ⟨Files.of_file, Files.file_eq_ok⟩

/-- What is known of the node `n` that the members of an object decode to.
`ofJson_eq_ok_iff` says that this is all. -/
structure Decoded (members : List (String × Json)) (n : Node) : Prop where
  type : Members.find? members "type" = some (.string n.kind.tag)
  loc : decodeLocation n.kind (Members.find? members "loc") = .ok n.loc
  filings : ∃ filings, List.Forall₂ (fun e filing => Files e.1 e.2 filing)
    (memberOrder n.kind members) filings ∧
    n.fields = filings.filterMap Filing.field? ∧
    n.attributes = Members.ofList (filings.filterMap Filing.attribute?)
  extension : n.extension = (Members.find? members "inferredType").filter fun v => !v.isNull

theorem decodeKind_eq_ok_iff {tag? : Option Json} {kind : Kind} :
    decodeKind tag? = .ok kind ↔ tag? = some (.string kind.tag) := by
  constructor
  · intro h
    cases tag? with
    | none => cases h
    | some v =>
        cases v with
        | string tag =>
            cases h
            rfl
        | _ => cases h
  · rintro rfl
    rfl

/-- An object decodes to a node if each of its parts does, and nothing else decodes to a node. -/
theorem ofJson_eq_ok_iff {v : Json} {n : Node} :
    ofJson v = .ok n ↔ ∃ members, v = .object members ∧ Decoded members n := by
  constructor
  · intro h
    obtain ⟨members, rfl⟩ := exists_members_of_ofJson h
    refine ⟨members, rfl, ?_⟩
    rw [ofJson_object, decodeObject] at h
    simp only [find?_map_ofMember, filingOrder_map_ofMember, List.mapM_map, bind_eq_ok_iff] at h
    obtain ⟨kind, hkind, loc, hloc, filings, hfilings, hn⟩ := h
    cases hn
    refine ⟨decodeKind_eq_ok_iff.1 hkind, hloc, ⟨filings, ?_, rfl, rfl⟩, rfl⟩
    exact (mapM_eq_ok_iff.1 hfilings).imp fun e filing => file_ofMember_eq_ok_iff.1
  · rintro ⟨members, rfl, htype, hloc, ⟨filings, hfilings, hfields, hattributes⟩, hextension⟩
    rw [ofJson_object, decodeObject]
    simp only [find?_map_ofMember, filingOrder_map_ofMember, List.mapM_map, bind_eq_ok_iff]
    refine ⟨n.kind, decodeKind_eq_ok_iff.2 htype, n.loc, hloc, filings, ?_, ?_⟩
    · exact mapM_eq_ok_iff.2 (hfilings.imp fun e filing => file_ofMember_eq_ok_iff.2)
    · rw [← hfields, ← hattributes, ← hextension]
      cases n
      rfl

/-- An object with nothing but a type is a node with nothing but a kind. -/
theorem ofJson_type (kind : Kind) :
    ofJson (.object [("type", .string kind.tag)]) = .ok (.ofKind kind) := by
  refine ofJson_eq_ok_iff.2 ⟨_, rfl, rfl, rfl, ⟨[], ?_, rfl, Members.ofList_nil.symm⟩, rfl⟩
  simp [memberOrder, reservedNames]

/-! ### Children -/

def Filing.nodes (filing : Filing) : List (Option Nat × Node) :=
  match filing.field? with
  | some f => f.slot.nodes
  | none => []

theorem forall₂_nodes_of_places {items : List Json} {places : List (Option Node)}
    (h : List.Forall₂ Places items places) (k : Nat) :
    List.Forall₂ (fun e s => e.1 = s.1 ∧ ofJson s.2 = .ok e.2)
      ((places.zipIdx k).filterMap fun e => e.1.map fun node => (some e.2, node))
      ((items.zipIdx k).filterMap fun e => if e.1.isNode then some (some e.2, e.1) else none) := by
  induction h generalizing k with
  | nil => exact .nil
  | @cons v place items places hplace _ ih =>
      rw [List.zipIdx_cons, List.zipIdx_cons, List.filterMap_cons, List.filterMap_cons]
      by_cases hv : v.isNode = true
      · simp only [Places, hv, if_true] at hplace
        obtain ⟨n, hn, rfl⟩ := hplace
        simp only [hv, if_true, Option.map_some]
        exact .cons ⟨rfl, hn⟩ (ih (k + 1))
      · simp only [Places, hv, Bool.false_eq_true, if_false] at hplace
        subst hplace
        simp only [hv, Bool.false_eq_true, if_false, Option.map_none]
        exact ih (k + 1)

/-- What is filed of a member has the nodes that the member holds. -/
theorem Files.forall₂_nodes {known : Bool} {m : String × Json} {filing : Filing}
    (h : Files known m filing) :
    List.Forall₂ (fun e s => e.1 = s.1 ∧ ofJson s.2 = .ok e.2) filing.nodes m.2.slotNodes := by
  cases h with
  | drop => exact .nil
  | single hnode hn =>
      simp only [Json.slotNodes, hnode, if_true]
      exact .cons ⟨rfl, hn⟩ .nil
  | sequence _ hplaces => exact forall₂_nodes_of_places hplaces 0
  | @keepArray name items hseq =>
      have hnone : ∀ v ∈ items, v.isNode = false := by
        simpa using (Bool.or_eq_false_iff.1 hseq).2
      have hnodes : Json.slotNodes (.array items) = [] := by
        show items.zipIdx.filterMap _ = []
        rw [List.filterMap_eq_nil_iff]
        rintro ⟨v, i⟩ hv
        simp [hnone v (List.fst_mem_of_mem_zipIdx hv)]
      rw [hnodes]
      exact .nil
  | @keep name v hnode harray =>
      have hnodes : v.slotNodes = [] := by
        simp only [Json.slotNodes, hnode, Bool.false_eq_true, if_false]
        cases v with
        | array items => exact absurd rfl harray
        | _ => rfl
      rw [hnodes]
      exact .nil

theorem Files.name_of_field? {known : Bool} {m : String × Json} {filing : Filing} {f : Field Node}
    (h : Files known m filing) (hf : filing.field? = some f) : f.name = m.1 := by
  cases h with
  | single => cases hf; rfl
  | sequence => cases hf; rfl
  | drop => cases hf
  | keepArray => cases hf
  | keep => cases hf

/-- The children of a node are the nodes that its members hold, member by member, and hang below it
by the names of the members. -/
theorem Decoded.forall₂_children {members : List (String × Json)} {n : Node}
    (h : Decoded members n) :
    List.Forall₂ (fun c s => c.1 = ⟨n, s.1, s.2.1⟩ ∧ ofJson s.2.2 = .ok c.2) n.children
      ((memberOrder n.kind members).flatMap fun e => e.2.2.slotNodes.map fun s => (e.2.1, s)) := by
  obtain ⟨filings, hfilings, hfields, -⟩ := h.filings
  rw [children, hfields]
  generalize memberOrder n.kind members = es at hfilings ⊢
  clear hfields h
  induction hfilings with
  | nil => exact .nil
  | @cons e filing es filings hfile _ ih =>
      rw [List.filterMap_cons, List.flatMap_cons]
      have hnodes := hfile.forall₂_nodes
      cases hfield : filing.field? with
      | none =>
          simp only [Filing.nodes, hfield, List.forall₂_nil_left_iff] at hnodes
          rw [hnodes]
          exact ih
      | some f =>
          simp only [Filing.nodes, hfield] at hnodes
          rw [List.flatMap_cons]
          refine List.rel_append ?_ ih
          rw [List.forall₂_map_left_iff, List.forall₂_map_right_iff]
          refine hnodes.imp ?_
          rintro ⟨i, c⟩ ⟨j, v⟩ ⟨hindex, hc⟩
          rw [hfile.name_of_field? hfield]
          exact ⟨congrArg (Edge.mk n e.2.1) hindex, hc⟩

/-- Below a decoded node, every node is decoded. -/
theorem exists_ofJson_of_mem_parts {v : Json} {n c : Node} (h : ofJson v = .ok n)
    (hc : c ∈ n.parts) :
    ∃ v', ofJson v' = .ok c := by
  obtain ⟨members, rfl, hdecoded⟩ := ofJson_eq_ok_iff.1 h
  obtain ⟨e, he, rfl⟩ := List.mem_map.1 hc
  obtain ⟨s, -, -, hs⟩ := exists_mem_of_forall₂ hdecoded.forall₂_children he
  exact ⟨s.2.2, hs⟩

/-! ### Order of the fields -/

theorem map_fst_filterMap_find?_sublist (keys : List String) (members : List (String × Json)) :
    ((keys.filterMap fun key => members.find? fun m => m.1 == key).map Prod.fst).Sublist keys := by
  induction keys with
  | nil => exact .slnil
  | cons key keys ih =>
      rw [List.filterMap_cons]
      cases hfind : members.find? fun m => m.1 == key with
      | none => exact ih.cons key
      | some m =>
          have hname : m.1 = key := by simpa using List.find?_some hfind
          rw [List.map_cons, hname]
          exact ih.cons_cons key

theorem map_name_sublist_of_files {es : List (Bool × String × Json)} {filings : List Filing}
    (h : List.Forall₂ (fun e filing => Files e.1 e.2 filing) es filings) :
    ((filings.filterMap Filing.field?).map Field.name).Sublist (es.map fun e => e.2.1) := by
  induction h with
  | nil => exact .slnil
  | @cons e filing es filings hfile _ ih =>
      rw [List.filterMap_cons, List.map_cons]
      cases hfield : filing.field? with
      | none => exact ih.cons _
      | some f =>
          rw [List.map_cons, hfile.name_of_field? hfield]
          exact ih.cons_cons _

/-- The fields of the child properties come first, in the order of the kind. -/
theorem Decoded.exists_fields {members : List (String × Json)} {n : Node} (h : Decoded members n) :
    ∃ known others, n.fields = known ++ others ∧ (known.map Field.name).Sublist n.kind.childKeys ∧
      ∀ f ∈ others, f.name ∉ n.kind.childKeys := by
  obtain ⟨filings, hfilings, hfields, -⟩ := h.filings
  rw [memberOrder] at hfilings
  obtain ⟨filed, filed', rfl, hknown, hothers⟩ := exists_append_of_forall₂ hfilings
  refine ⟨filed.filterMap Filing.field?, filed'.filterMap Filing.field?, ?_, ?_, ?_⟩
  · rw [hfields, List.filterMap_append]
  · have hnames := map_name_sublist_of_files hknown
    rw [List.map_map] at hnames
    exact hnames.trans (map_fst_filterMap_find?_sublist _ _)
  · intro f hf
    have hname := (map_name_sublist_of_files hothers).subset (List.mem_map_of_mem hf)
    rw [List.map_map] at hname
    obtain ⟨m, hm, hmf⟩ := List.mem_map.1 hname
    have hfree := (List.mem_filter.1 hm).2
    rw [← hmf]
    simpa using hfree

/-- The field of a child property stands behind the fields of the child properties before it, and
before all others. -/
theorem Decoded.exists_split {members : List (String × Json)} {n : Node} (h : Decoded members n)
    {before after : List String} {key : String} {slot : Slot Node}
    (hkeys : n.kind.childKeys = before ++ key :: after) (hnodup : n.kind.childKeys.Nodup)
    (hfield : n.field? key = some slot) :
    ∃ fs fs', n.fields = fs ++ ⟨key, slot⟩ :: fs' ∧ (∀ f ∈ fs, f.name ∈ before) ∧
      ∀ f ∈ fs', f.name ∉ before ∧ f.name ≠ key := by
  obtain ⟨known, others, hfields, hknown, hothers⟩ := h.exists_fields
  rw [hkeys] at hknown hothers hnodup
  obtain ⟨names, names', hnames, hbefore, hfrom⟩ := List.sublist_append_iff.1 hknown
  obtain ⟨fs, rest, rfl, rfl, rfl⟩ := List.map_eq_append_iff.1 hnames
  obtain ⟨-, hnodupFrom, hdisjoint⟩ := List.nodup_append.1 hnodup
  have hkeyAfter : key ∉ after := (List.nodup_cons.1 hnodupFrom).1
  have hfs : ∀ f ∈ fs, f.name ∈ before := fun f hf => hbefore.subset (List.mem_map_of_mem hf)
  have hfindFs : fs.find? (fun f => f.name == key) = none := by
    rw [List.find?_eq_none]
    intro f hf hname
    exact hdisjoint f.name (hfs f hf) key List.mem_cons_self (by simpa using hname)
  have hfindOthers : others.find? (fun f => f.name == key) = none := by
    rw [List.find?_eq_none]
    intro f hf hname
    exact hothers f hf (by rw [show f.name = key by simpa using hname]; simp)
  simp only [field?, hfields, List.append_assoc, List.find?_append, hfindFs, hfindOthers,
    Option.none_or, Option.or_none] at hfield
  rcases List.sublist_cons_iff.1 hfrom with hafter | ⟨names, hrest, hafter⟩
  · -- without a field of this name there is no slot
    obtain ⟨f, hf, -⟩ := Option.map_eq_some_iff.1 hfield
    have hmem : f.name ∈ after := hafter.subset (List.mem_map_of_mem (List.mem_of_find?_eq_some hf))
    have hname : f.name = key := by simpa using List.find?_some hf
    exact absurd (hname ▸ hmem) hkeyAfter
  · obtain ⟨f, rest', rfl, hname, rfl⟩ := List.map_eq_cons_iff.1 hrest
    have hf : f = ⟨key, slot⟩ := by
      cases f
      simp_all
    refine ⟨fs, rest' ++ others, by rw [hfields, hf]; simp, hfs, ?_⟩
    intro g hg
    rcases List.mem_append.1 hg with hg | hg
    · have hmem : g.name ∈ after := hafter.subset (List.mem_map_of_mem hg)
      exact ⟨fun hbefore => hdisjoint g.name hbefore g.name (List.mem_cons_of_mem key hmem) rfl,
        fun hkey => hkeyAfter (hkey ▸ hmem)⟩
    · have hmem := hothers g hg
      rw [List.mem_append, List.mem_cons, not_or, not_or] at hmem
      exact ⟨hmem.1, hmem.2.1⟩

end Node
end Arborist
