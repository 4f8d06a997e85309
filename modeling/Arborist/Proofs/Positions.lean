import Arborist.Proofs.Decoding
import Arborist.Proofs.Members
import Arborist.Proofs.Walk

/-!
# Positions of nodes in a JSON value

A tree decoded from a JSON value has a node for every position of the value at which a node stands.
The positions are listed by recursion on the value (`Json.positions`), without regard to how a tree
is built: the value itself, and then, for every member in which children are looked for, the
positions below its value or below the items of its value.  A walk of the tree enters the nodes in
the order of this list, and each of them is reached by the edge that the path to its position ends
with.

Members are looked up by name, so the names of an object must be distinct.  `Json.WellFormed` says
that they are.
-/

namespace Arborist

theorem Kind.nodup_childKeys (kind : Kind) : kind.childKeys.Nodup := by
  have htable : ∀ e ∈ Kind.table, e.childKeys.Nodup := by decide
  rw [Kind.childKeys]
  split
  next e he =>
    exact htable e (List.mem_of_find?_eq_some he)
  next => exact List.nodup_nil

structure Edge.Label where
  field : String
  index : Option Nat
  deriving DecidableEq

namespace Json

/-! ### Paths -/

def follow? (v : Json) (label : Edge.Label) : Option Json :=
  match label.index, v.get? label.field with
  | none, child => child
  | some i, some (.array items) => items[i]?
  | some _, _ => none

def at? (v : Json) : List Edge.Label → Option Json
  | [] => some v
  | label :: path => (v.follow? label).bind fun child => child.at? path

theorem exists_member_of_get? {v child : Json} {name : String} (h : v.get? name = some child) :
    ∃ members, v = .object members ∧ (name, child) ∈ members := by
  cases v with
  | object members => exact ⟨members, rfl, Members.mem_of_find? h⟩
  | _ => cases h

theorem WellFormed.get? {v child : Json} {name : String} (hv : v.WellFormed)
    (h : v.get? name = some child) :
    child.WellFormed := by
  obtain ⟨members, rfl, hmem⟩ := exists_member_of_get? h
  cases hv with
  | object _ hmembers => exact hmembers _ hmem

theorem sizeOf_lt_of_get? {v child : Json} {name : String} (h : v.get? name = some child) :
    sizeOf child < sizeOf v := by
  obtain ⟨members, rfl, hmem⟩ := exists_member_of_get? h
  have hsize := List.sizeOf_lt_of_mem hmem
  simp only [Prod.mk.sizeOf_spec, object.sizeOf_spec] at hsize ⊢
  omega

theorem follow?_cases {v child : Json} {label : Edge.Label} (h : v.follow? label = some child) :
    v.get? label.field = some child ∨ ∃ items, v.get? label.field = some (.array items) ∧
      child ∈ items := by
  rw [follow?] at h
  split at h
  next => exact .inl h
  next heq =>
    exact .inr ⟨_, heq, List.mem_of_getElem? h⟩
  next => cases h

theorem WellFormed.follow? {v child : Json} {label : Edge.Label} (hv : v.WellFormed)
    (h : v.follow? label = some child) : child.WellFormed := by
  rcases follow?_cases h with hget | ⟨items, hget, hmem⟩
  · exact hv.get? hget
  · cases hv.get? hget with
    | array hitems => exact hitems _ hmem

theorem WellFormed.at? {v w : Json} {path : List Edge.Label} (hv : v.WellFormed)
    (h : v.at? path = some w) :
    w.WellFormed := by
  induction path generalizing v with
  | nil =>
      cases h
      exact hv
  | cons label path ih =>
      obtain ⟨child, hchild, hw⟩ := Option.bind_eq_some_iff.1 h
      exact ih (hv.follow? hchild) hw

theorem sizeOf_lt_of_follow? {v child : Json} {label : Edge.Label}
    (h : v.follow? label = some child) :
    sizeOf child < sizeOf v := by
  rcases follow?_cases h with hget | ⟨items, hget, hmem⟩
  · exact sizeOf_lt_of_get? hget
  · have hitems := List.sizeOf_lt_of_mem hmem
    have harray := sizeOf_lt_of_get? hget
    simp only [array.sizeOf_spec] at harray
    omega

/-! ### Positions -/

def names : Json → List String
  | .object members => members.map Prod.fst
  | _ => []

def childKeys (v : Json) : List String :=
  match v.get? "type" with
  | some (.string tag) => Kind.childKeys ⟨tag⟩
  | _ => []

/-- The members in which children are looked for, in order: the child properties of the kind as its
table lists them, then the others by name. -/
def childNames (v : Json) : List String :=
  (v.childKeys ++ (v.names.filter fun name => !v.childKeys.contains name).mergeSort).filter
    fun name => !Node.reservedNames.contains name

def childMembers (v : Json) : List (String × Json) :=
  v.childNames.filterMap fun name => (v.get? name).map fun child => (name, child)

/-- The children of a value that is a node, in order, each with the label that leads to it by
`follow?`. -/
def childNodes (v : Json) : List (Edge.Label × Json) :=
  v.childMembers.flatMap fun m => m.2.slotNodes.map fun e => (⟨m.1, e.1⟩, e.2)

theorem mem_slotNodes {v : Json} {e : Option Nat × Json} (h : e ∈ v.slotNodes) :
    e = (none, v) ∨ ∃ items i, v = .array items ∧ e.1 = some i ∧ items[i]? = some e.2 := by
  unfold slotNodes at h
  split at h
  · exact .inl (List.mem_singleton.1 h)
  · split at h
    next items _ =>
      obtain ⟨⟨item, i⟩, hitem, he⟩ := List.mem_filterMap.1 h
      split at he
      · cases he
        exact .inr ⟨items, i, rfl, rfl, (List.mk_mem_zipIdx_iff_getElem?.1 hitem)⟩
      · cases he
    next => cases h

theorem follow?_of_mem_childNodes {v : Json} {c : Edge.Label × Json} (h : c ∈ v.childNodes) :
    v.follow? c.1 = some c.2 := by
  obtain ⟨m, hm, hc⟩ := List.mem_flatMap.1 h
  obtain ⟨e, he, rfl⟩ := List.mem_map.1 hc
  obtain ⟨name, -, hname⟩ := List.mem_filterMap.1 hm
  obtain ⟨child, hget, rfl⟩ := Option.map_eq_some_iff.1 hname
  rcases mem_slotNodes he with rfl | ⟨items, i, rfl, hi, hitem⟩
  · exact hget
  · simp [follow?, hi, hget, hitem]

/-- The positions at which nodes stand in a value that is a node itself, each with the path to it.
The value comes first, and a node before what is below it. -/
def positions (v : Json) : List (List Edge.Label × Json) :=
  ([], v) :: v.childNodes.attach.flatMap fun c => (positions c.1.2).map fun p => (c.1.1 :: p.1, p.2)
termination_by sizeOf v
decreasing_by exact sizeOf_lt_of_follow? (follow?_of_mem_childNodes c.2)

theorem positions_eq (v : Json) :
    v.positions =
      ([], v) :: v.childNodes.flatMap fun c => c.2.positions.map fun p => (c.1 :: p.1, p.2) := by
  rw [positions]
  calc
    _ = ([], v) :: (v.childNodes.attach.map Subtype.val).flatMap
          fun c => c.2.positions.map fun p => (c.1 :: p.1, p.2) := by rw [List.flatMap_map]
    _ = _ := by rw [List.attach_map_subtype_val]

/-! ### Paths of positions are distinct -/

theorem nodup_childKeys (v : Json) : v.childKeys.Nodup := by
  rw [childKeys]
  split
  · exact Kind.nodup_childKeys _
  · exact List.nodup_nil

theorem nodup_names {v : Json} (hv : v.WellFormed) : v.names.Nodup := by
  cases hv with
  | object hsorted _ => exact hsorted.imp fun hlt => String.ne_of_lt hlt
  | _ => exact List.nodup_nil

theorem nodup_childNames {v : Json} (hv : v.WellFormed) : v.childNames.Nodup := by
  refine List.Nodup.filter _ (List.nodup_append'.2 ⟨v.nodup_childKeys, ?_, ?_⟩)
  · exact (List.mergeSort_perm _ _).nodup_iff.2 ((nodup_names hv).filter _)
  · intro name hkey hother
    have hmem := (List.mem_filter.1 (List.mem_mergeSort.1 hother)).2
    simp [hkey] at hmem

theorem nodup_map_fst_slotNodes (v : Json) : (v.slotNodes.map Prod.fst).Nodup := by
  unfold slotNodes
  split
  · exact List.nodup_singleton _
  · split
    next items _ =>
      have hindex : (items.zipIdx.map Prod.snd).Nodup := by
        rw [List.zipIdx_map_snd]
        exact List.nodup_range'
      rw [List.Nodup, List.pairwise_map, List.pairwise_filterMap]
      refine (List.pairwise_map.1 hindex).imp fun {e e'} hne x hx x' hx' => ?_
      split at hx
      · split at hx'
        · cases hx
          cases hx'
          exact fun heq => hne (Option.some.inj heq)
        · cases hx'
      · cases hx
    next => exact List.nodup_nil

theorem nodup_map_fst_childNodes {v : Json} (hv : v.WellFormed) :
    (v.childNodes.map Prod.fst).Nodup := by
  have hnames : v.childMembers.Pairwise fun m m' => m.1 ≠ m'.1 := by
    rw [childMembers, List.pairwise_filterMap]
    refine (nodup_childNames hv).imp fun {name name'} hne m hm m' hm' => ?_
    obtain ⟨child, -, rfl⟩ := Option.map_eq_some_iff.1 hm
    obtain ⟨child', -, rfl⟩ := Option.map_eq_some_iff.1 hm'
    exact hne
  rw [childNodes, List.map_flatMap, List.nodup_flatMap]
  refine ⟨fun m _ => ?_, hnames.imp fun {m m'} hne label hlabel hlabel' => ?_⟩
  · have hmap : (m.2.slotNodes.map fun e => ((⟨m.1, e.1⟩ : Edge.Label), e.2)).map Prod.fst =
        (m.2.slotNodes.map Prod.fst).map fun index => ⟨m.1, index⟩ := by
      rw [List.map_map, List.map_map]
      rfl
    rw [hmap]
    exact m.2.nodup_map_fst_slotNodes.map fun i j hij => congrArg Edge.Label.index hij
  · simp only [List.map_map, List.mem_map] at hlabel hlabel'
    obtain ⟨e, -, rfl⟩ := hlabel
    obtain ⟨e', -, heq⟩ := hlabel'
    exact hne (congrArg Edge.Label.field heq).symm

theorem nodup_map_fst_positions {v : Json} (hv : v.WellFormed) :
    (v.positions.map Prod.fst).Nodup := by
  have hmap : ∀ c : Edge.Label × Json, (c.2.positions.map fun p => (c.1 :: p.1, p.2)).map Prod.fst =
      (c.2.positions.map Prod.fst).map (c.1 :: ·) := fun c => by
    rw [List.map_map, List.map_map]
    rfl
  rw [positions_eq, List.map_cons, List.map_flatMap, List.nodup_cons, List.nodup_flatMap]
  simp only [hmap]
  have hlabels := List.pairwise_map.1 (nodup_map_fst_childNodes hv)
  -- paths below one child differ by induction, and paths below two children differ in their first
  -- label
  refine ⟨by simp, fun c hc => ?_, hlabels.imp fun {c c'} hne path hpath hpath' => ?_⟩
  · have hchild := nodup_map_fst_positions (hv.follow? (follow?_of_mem_childNodes hc))
    exact hchild.map List.cons_injective
  · obtain ⟨rest, -, rfl⟩ := List.mem_map.1 hpath
    obtain ⟨rest', -, heq⟩ := List.mem_map.1 hpath'
    exact hne (List.cons.inj heq).1.symm
termination_by sizeOf v
decreasing_by exact sizeOf_lt_of_follow? (follow?_of_mem_childNodes hc)

/-! ### Positions and decoding -/

theorem find?_filter_reserved (members : List (String × Json)) (name : String) :
    (members.filter fun m => !Node.reservedNames.contains m.1).find? (fun m => m.1 == name) =
      if Node.reservedNames.contains name then
        none
      else (Members.find? members name).map fun v => (name, v) := by
  induction members with
  | nil => simp [Members.find?_nil]
  | cons m members ih =>
      rw [Members.find?_cons, List.filter_cons]
      by_cases hname : m.1 = name
      · subst hname
        split
        next hfree =>
          rw [List.find?_cons]
          simp_all
        next =>
          rw [ih]
          simp_all
      · have hne : (name == m.1) = false := beq_eq_false_iff_ne.2 fun h => hname h.symm
        rw [hne]
        split
        · rw [List.find?_cons, beq_eq_false_iff_ne.2 hname, ih]
          rfl
        · rw [ih]
          rfl

/-- The members of an object in which children are looked for are those that decoding files, in the
same order. -/
theorem childMembers_object {members : List (String × Json)} (hsorted : Members.Sorted members)
    {kind : Kind} (htype : Members.find? members "type" = some (.string kind.tag)) :
    (object members).childMembers = (Node.memberOrder kind members).map Prod.snd := by
  have hkeys : (object members).childKeys = kind.childKeys := by
    rw [childKeys, get?, htype]
  have hsort : ((members.map Prod.fst).filter fun name => !kind.childKeys.contains name).mergeSort =
      (members.map Prod.fst).filter fun name => !kind.childKeys.contains name := by
    refine List.mergeSort_of_pairwise ((hsorted.filter _).imp fun hlt => ?_)
    exact decide_eq_true (String.not_lt.1 (String.lt_asymm hlt))
  rw [childMembers, childNames, hkeys, names, hsort, List.filter_append, List.filterMap_append,
    Node.memberOrder, List.map_append, List.map_map, List.map_map]
  refine congrArg₂ (· ++ ·) ?_ ?_
  · rw [List.filterMap_filter]
    refine Eq.trans (List.filterMap_congr fun key _ => ?_) (List.map_id _).symm
    rw [find?_filter_reserved, get?]
    cases Node.reservedNames.contains key <;> rfl
  · -- names are distinct, so looking a name up gives the member it comes from
    have hfind : ∀ m ∈ members, (Members.find? members m.1).map (fun child => (m.1, child)) =
        some m := by
      intro m hm
      rw [hsorted.find?_of_mem hm]
      rfl
    rw [List.filter_map, List.filter_map, List.filterMap_map]
    refine Eq.trans (List.filterMap_congr fun m hm => ?_) (List.filterMap_some.trans ?_)
    · exact hfind m (List.mem_of_mem_filter (List.mem_of_mem_filter hm))
    · rw [List.filter_comm]
      exact (List.map_id _).symm

/-- The children of a decoded node come from the children of its value, one by one. -/
theorem forall₂_childNodes {v : Json} (hv : v.WellFormed) {top : Visit}
    (h : Node.ofJson v = .ok top.node) :
    List.Forall₂
      (fun (w : Visit) c => w.edge = some ⟨top.node, c.1.field, c.1.index⟩ ∧
        Node.ofJson c.2 = .ok w.node)
      top.parts v.childNodes := by
  obtain ⟨members, rfl, hdecoded⟩ := Node.ofJson_eq_ok_iff.1 h
  have hsorted : Members.Sorted members := by
    cases hv with
    | object hsorted _ => exact hsorted
  have hchildren : (object members).childNodes =
      ((Node.memberOrder top.node.kind members).flatMap fun e => e.2.2.slotNodes.map fun s =>
        (e.2.1, s)).map
        fun s => (⟨s.1, s.2.1⟩, s.2.2) := by
    rw [childNodes, childMembers_object hsorted hdecoded.type, List.flatMap_map, List.map_flatMap]
    simp only [List.map_map]
    rfl
  have hparts : List.Forall₂
      (fun (x : Option Edge × Node) s => x.1 = some ⟨top.node, s.1, s.2.1⟩ ∧
        Node.ofJson s.2.2 = .ok x.2)
      (top.parts.map fun w => (w.edge, w.node))
      ((Node.memberOrder top.node.kind members).flatMap fun e => e.2.2.slotNodes.map fun s =>
          (e.2.1, s)) := by
    rw [Visit.map_edge_node_parts, List.forall₂_map_left_iff]
    exact hdecoded.forall₂_children.imp fun c s hs => ⟨congrArg some hs.1, hs.2⟩
  rw [hchildren, List.forall₂_map_right_iff]
  exact List.forall₂_map_left_iff.1 hparts

end Json

/-- A visit below the visit `top` of a value stands at a position of the value: its node is the one
that stands there, and it hangs by the label with which the path ends below the node at the rest of
the path. -/
structure Visit.StandsAt (v : Json) (top w : Visit) (p : List Edge.Label × Json) : Prop where
  value : v.at? p.1 = some p.2
  node : Node.ofJson p.2 = .ok w.node
  depth : w.depth = top.depth + p.1.length
  edge : (p.1 = [] ∧ w.edge = top.edge) ∨
    ∃ path label above parent, p.1 = path ++ [label] ∧ v.at? path = some above ∧
      Node.ofJson above = .ok parent ∧
      w.edge = some ⟨parent, label.field, label.index⟩

theorem Visit.StandsAt.below {v child : Json} {top next w : Visit} {label : Edge.Label}
    {p : List Edge.Label × Json} (h : StandsAt child next w p)
    (hfollow : v.follow? label = some child)
    (htop : Node.ofJson v = .ok top.node) (hdepth : next.depth = top.depth + 1)
    (hedge : next.edge = some ⟨top.node, label.field, label.index⟩) :
    StandsAt v top w (label :: p.1, p.2) := by
  have hat : ∀ path, v.at? (label :: path) = child.at? path := fun path => by
    rw [Json.at?, hfollow, Option.bind_some]
  refine ⟨(hat p.1).trans h.value, h.node, ?_, .inr ?_⟩
  · rw [h.depth, hdepth, List.length_cons]
    omega
  · rcases h.edge with ⟨hnil, hw⟩ | ⟨path, last, above, parent, hpath, habove, hparent, hw⟩
    · refine ⟨[], label, v, top.node, ?_, rfl, htop, hw.trans hedge⟩
      rw [hnil, List.nil_append]
    · refine ⟨label :: path, last, above, parent, ?_, (hat path).trans habove, hparent, hw⟩
      rw [hpath, List.cons_append]

theorem forall₂_standsAt {v : Json} {top : Visit} (hv : v.WellFormed)
    (h : Node.ofJson v = .ok top.node) :
    List.Forall₂ (Visit.StandsAt v top) (Branching.nodes top) v.positions := by
  induction top using Branching.parts_induction generalizing v with
  | step top ih =>
      rw [Branching.nodes_eq, Json.positions_eq]
      -- children and child positions go side by side, and what is below them does so by induction
      refine .cons ⟨rfl, h, rfl, .inl ⟨rfl, rfl⟩⟩
        (forall₂_flatMap (Json.forall₂_childNodes hv h) ?_)
      intro w hw c hc hwc
      have hfollow := Json.follow?_of_mem_childNodes hc
      rw [List.forall₂_map_right_iff]
      exact (ih w hw (hv.follow? hfollow) hwc.2).imp fun u p hu =>
        hu.below hfollow h (Visit.depth_of_mem_parts hw) hwc.1

/-- The visits of a tree stand at the positions of the value that it comes from, and are numbered by
them. -/
theorem forall₂_standsAt_zipIdx {v : Json} {root : Node} (hv : v.WellFormed)
    (h : Node.ofJson v = .ok root) :
    List.Forall₂ (fun w p => Visit.StandsAt v (Visit.ofRoot root) w p.1 ∧ w.ordinal = p.2)
      (Branching.nodes (Visit.ofRoot root)) v.positions.zipIdx := by
  have hordinals := map_ordinal_preorder root
  have hlength := congrArg List.length hordinals
  rw [List.length_map, List.length_range] at hlength
  rw [← hlength, List.range_eq_range', Visit.preorder_ofRoot] at hordinals
  have htop : Node.ofJson v = .ok (Visit.ofRoot root).node := h
  exact forall₂_zipIdx (forall₂_standsAt hv htop) hordinals

/-- A walk enters a node for every position of the value, in the order of the positions and by their
edges.  No position is listed twice. -/
theorem preorder_standsAt_positions {v : Json} (hv : v.WellFormed) {root : Node}
    (h : Node.ofJson v = .ok root) :
    List.Forall₂ (Visit.StandsAt v (Visit.ofRoot root)) (Visit.ofRoot root).preorder v.positions ∧
      (v.positions.map Prod.fst).Nodup := by
  rw [Visit.preorder_ofRoot]
  exact ⟨forall₂_standsAt hv h, Json.nodup_map_fst_positions hv⟩

/-- A block with an empty place among its statements, and with a node under a name that blocks do
not have. -/
def markedBlock : Json :=
  .object [("body", .array [.null, .object [("type", .string "EmptyStatement")]]),
    ("mark", .object [("type", .string "Mark")]), ("type", .string "BlockStatement")]

theorem wellFormed_markedBlock : markedBlock.WellFormed := by
  have htype : ∀ tag, (Json.object [("type", .string tag)]).WellFormed := fun tag =>
    .object (List.pairwise_singleton _ _) (by simpa using .string tag)
  refine .object (show ["body", "mark", "type"].Pairwise (· < ·) by decide) ?_
  simp only [List.forall_mem_cons, List.not_mem_nil, false_imp_iff, implies_true, and_true]
  refine ⟨.array ?_, htype _, .string _⟩
  simpa using ⟨.null, htype _⟩

theorem ofJson_markedBlock :
    Node.ofJson markedBlock = .ok ⟨⟨"BlockStatement"⟩, none,
      [⟨"body", .sequence [none, some (.ofKind ⟨"EmptyStatement"⟩)]⟩,
        ⟨"mark", .single (.ofKind ⟨"Mark"⟩)⟩], [],
      none⟩ := by
  have hempty : Node.ofJson (.object [("type", .string "EmptyStatement")]) =
      .ok (.ofKind ⟨"EmptyStatement"⟩) :=
    Node.ofJson_type ⟨"EmptyStatement"⟩
  refine Node.ofJson_eq_ok_iff.2 ⟨_, rfl, rfl, rfl,
    ⟨[.field ⟨"body", .sequence [none, some (.ofKind _)]⟩, .field ⟨"mark", .single (.ofKind _)⟩],
    ?_, rfl, Members.ofList_nil.symm⟩, rfl⟩
  refine .cons (.sequence rfl (.cons ?_ (.cons ?_ .nil)))
    (.cons (.single rfl (Node.ofJson_type ⟨"Mark"⟩)) .nil)
  · rfl
  · exact ⟨_, hempty, rfl⟩

theorem preorder_standsAt_markedBlock :
    ∃ root, Node.ofJson markedBlock = .ok root ∧ markedBlock.WellFormed ∧
      List.Forall₂ (Visit.StandsAt markedBlock (Visit.ofRoot root)) (Visit.ofRoot root).preorder
        markedBlock.positions ∧
      (markedBlock.positions.map Prod.fst).Nodup :=
  ⟨_, ofJson_markedBlock, wellFormed_markedBlock,
    preorder_standsAt_positions wellFormed_markedBlock ofJson_markedBlock⟩

end Arborist
