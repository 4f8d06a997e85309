import Arborist.Proofs.Decoding
import Arborist.Proofs.LoopScopes

/-!
# Heads of loops

Whether the scopes around a node make it run once per iteration can be said going down from the
root, with one truth value in place of the list of scopes: `passDown` is what a child inherits.

This rests on the order of the children.  In a decoded tree the head of a loop comes first
(`HeadFirst`).  The rule notices that the head is over when it leaves the last node of the head, but
not if that node opens a scope of its own: then it closes the scope and looks no further.
`headCloses` tells the two apart.
-/

namespace Arborist

def Visit.field? (v : Visit) : Option String := v.edge.map Edge.field

namespace Rule.AwaitInLoop

def inHead (n : Node) (c : Visit) : Bool :=
  c.field?.any fun field => (headFields n).contains field

/-- Whether the end of the head is noticed: the head ends with a node that opens no scope, or there
is no head.  The rule takes a loop or function at the end of a head for a scope of its own and
misses the end. -/
def headCloses (n : Node) : Bool :=
  match (headFields n).getLast? with
  | none => true
  | some field => (n.child? field).all fun c => !isLoop c && !isFunction c

/-- Whether the child `c` of `n` runs once per iteration, given whether `n` does. -/
def passDown (n : Node) (c : Visit) (perIteration : Bool) : Bool :=
  if isLoop n then perIteration || (!inHead n c && headCloses n) else perIteration && !isFunction n

/-- The loop `l` iterates the node `a` below it if the way down to `a` does not start in the head of
`l`, and leads through no function. -/
def Iterates (l a : Visit) : Prop :=
  isLoop l.node = true ∧ ∃ between, l.Reaches between a ∧
    (∀ f ∈ between, isFunction f.node = false) ∧
    inHead l.node (between.headD a) = false

/-- The head of a loop comes before the rest of it and ends with a single node.  This is so in every
decoded tree (`headFirst_of_ofJson`). -/
def HeadFirst (v : Visit) : Prop :=
  ∀ field, (headFields v.node).getLast? = some field →
    ∃ heads last bodies, v.parts = heads ++ last :: bodies ∧
      v.node.child? field = some last.node ∧ last.field? = some field ∧
      (∀ w ∈ heads, inHead v.node w = true ∧ w.field? ≠ some field) ∧
      ∀ w ∈ bodies, inHead v.node w = false

theorem isBelow_eq (v : Visit) (depth : Nat) (field : String) :
    isBelow v depth field = (v.field? == some field && v.depth == depth + 1) := by
  rw [isBelow, Visit.field?]
  cases v.edge with
  | none => rfl
  | some e => rfl

theorem scope?_eq_none_iff (v : Visit) :
    scope? v = none ↔ (!isLoop v.node && !isFunction v.node) = true := by
  rw [scope?_eq]
  cases isLoop v.node <;> cases isFunction v.node <;> simp

/-! ### Order of the children in a decoded tree -/

theorem field?_of_map_eq {n : Node} {fs : List (Field Node)} {ws : List Visit}
    (h : ws.map (fun w => (w.edge, w.node)) =
      (fs.flatMap fun f => f.slot.nodes.map fun e => ((⟨n, f.name, e.1⟩ : Edge), e.2)).map
        fun c => (some c.1, c.2)) :
    ∀ w ∈ ws, ∃ f ∈ fs, w.field? = some f.name := by
  intro w hw
  have hmem : (w.edge, w.node) ∈ ws.map fun w => (w.edge, w.node) := List.mem_map_of_mem hw
  rw [h] at hmem
  obtain ⟨c, hc, heq⟩ := List.mem_map.1 hmem
  obtain ⟨f, hf, hcf⟩ := List.mem_flatMap.1 hc
  obtain ⟨e, -, rfl⟩ := List.mem_map.1 hcf
  refine ⟨f, hf, ?_⟩
  have hedge : some (⟨n, f.name, e.1⟩ : Edge) = w.edge := congrArg Prod.fst heq
  rw [Visit.field?, ← hedge]
  rfl

/-- A field that holds a single node cuts the parts of a visit in two. -/
theorem exists_parts_of_fields {v : Visit} {fs fs' : List (Field Node)} {key : String} {node : Node}
    (hfields : v.node.fields = fs ++ ⟨key, .single node⟩ :: fs') :
    ∃ heads last bodies, v.parts = heads ++ last :: bodies ∧ last.node = node ∧
      last.field? = some key ∧
      (∀ w ∈ heads, ∃ f ∈ fs, w.field? = some f.name) ∧
        ∀ w ∈ bodies, ∃ f ∈ fs', w.field? = some f.name := by
  have hparts := v.map_edge_node_parts
  rw [Node.children, hfields, List.flatMap_append, List.flatMap_cons, List.map_append] at hparts
  obtain ⟨heads, rest, hsplit, hheads, hrest⟩ := List.map_eq_append_iff.1 hparts
  obtain ⟨last, bodies, rfl, hlast, hbodies⟩ := List.map_eq_cons_iff.1 hrest
  refine ⟨heads, last, bodies, hsplit, congrArg Prod.snd hlast, ?_, field?_of_map_eq hheads,
    field?_of_map_eq hbodies⟩
  rw [Visit.field?, show last.edge = _ from congrArg Prod.fst hlast]
  rfl

theorem headFirst_of_split {v : Visit} {json : Json} (h : Node.ofJson json = .ok v.node)
    (before after : List String) {key : String} (hhead : headFields v.node = before ++ [key])
    (hkeys : v.node.kind.childKeys = before ++ key :: after)
    (hnodup : (before ++ key :: after).Nodup)
    {node : Node} (hchild : v.node.child? key = some node) : HeadFirst v := by
  obtain ⟨members, -, hdecoded⟩ := Node.ofJson_eq_ok_iff.1 h
  have hfield : v.node.field? key = some (.single node) := by
    rw [Node.child?] at hchild
    split at hchild
    next heq =>
      cases hchild
      exact heq
    next => cases hchild
  obtain ⟨fs, fs', hfields, hfs, hfs'⟩ := hdecoded.exists_split hkeys (hkeys ▸ hnodup) hfield
  obtain ⟨heads, last, bodies, hparts, rfl, hlast, hheads, hbodies⟩ :=
    exists_parts_of_fields hfields
  have hbefore : key ∉ before := fun hmem =>
    (List.nodup_append.1 hnodup).2.2 key hmem key List.mem_cons_self rfl
  intro field hfieldEnd
  rw [hhead, List.getLast?_concat, Option.some_inj] at hfieldEnd
  subst hfieldEnd
  refine ⟨heads, last, bodies, hparts, hchild, hlast, ?_, ?_⟩
  · intro w hw
    obtain ⟨f, hf, hwf⟩ := hheads w hw
    have hmem := hfs f hf
    refine ⟨by simp [inHead, hwf, hhead, hmem], ?_⟩
    rw [hwf]
    intro heq
    exact hbefore (Option.some.inj heq ▸ hmem)
  · intro w hw
    obtain ⟨f, hf, hwf⟩ := hbodies w hw
    have hmem := hfs' f hf
    simp [inHead, hwf, hhead, hmem.1, hmem.2]

/-- In a decoded tree the head of a loop comes first. -/
theorem headFirst_of_ofJson {v : Visit} {json : Json} (h : Node.ofJson json = .ok v.node) :
    HeadFirst v := by
  by_cases hfor : v.node.kind = .forStatement ∧ (v.node.child? "init").isSome
  · obtain ⟨node, hchild⟩ := Option.isSome_iff_exists.1 hfor.2
    refine headFirst_of_split h [] ["test", "update", "body"] ?_ ?_ (by decide) hchild
    · rw [headFields, if_pos hfor]
      rfl
    · rw [hfor.1]
      rfl
  · by_cases hin : (v.node.kind = .forInStatement ∨ v.node.kind = .forOfStatement) ∧
        (v.node.child? "right").isSome
    · obtain ⟨node, hchild⟩ := Option.isSome_iff_exists.1 hin.2
      refine headFirst_of_split h ["left"] ["body"] ?_ ?_ (by decide) hchild
      · rw [headFields, if_neg hfor, if_pos hin]
        rfl
      · rcases hin.1 with hkind | hkind <;>
          (rw [hkind]; rfl)
    · intro field hfield
      rw [headFields, if_neg hfor, if_neg hin] at hfield
      cases hfield

/-! ### What a child inherits -/

def endsHead (field : String) (w : Visit) : Bool :=
  w.field? == some field && (!isLoop w.node && !isFunction w.node)

theorem passed_loop {w : Visit} {depth : Nat} (hdepth : w.depth = depth + 1) (field : String)
    (inBody : Bool) (scopes : List Scope) :
    passed w (.loop depth (some field) inBody :: scopes) =
      .loop depth (some field) (inBody || endsHead field w) :: scopes := by
  cases hscope : scope? w with
  | some own =>
      have hopens : (!isLoop w.node && !isFunction w.node) = false := by
        rw [Bool.eq_false_iff, ne_eq, ← scope?_eq_none_iff, hscope]
        exact Option.some_ne_none own
      rw [passed_of_some hscope, endsHead, hopens, Bool.and_false, Bool.or_false]
  | none =>
      rw [passed_of_none hscope, leave_of_depth_ne (by simp [Scope.depth, hdepth]), endsHead,
        (scope?_eq_none_iff w).1 hscope]
      simp [isBelow_eq, hdepth]

theorem passedAll_loop {ws : List Visit} {depth : Nat} (hdepth : ∀ w ∈ ws, w.depth = depth + 1)
    (field : String) (inBody : Bool) (scopes : List Scope) :
    passedAll ws (.loop depth (some field) inBody :: scopes) =
      .loop depth (some field) (inBody || ws.any (endsHead field)) :: scopes := by
  induction ws generalizing inBody with
  | nil => simp [passedAll]
  | cons w ws ih =>
      show passedAll ws (passed w _) = _
      rw [passed_loop (hdepth w List.mem_cons_self), ih fun x hx =>
        hdepth x (List.mem_cons_of_mem w hx), List.any_cons, Bool.or_assoc]

/-- Of two places in a list, one is the other or comes before it. -/
theorem append_cons_cases {α : Type} {as as' bs bs' : List α} {a b : α}
    (h : as ++ a :: as' = bs ++ b :: bs') :
    (∃ mid, bs = as ++ a :: mid) ∨ (as = bs ∧ a = b) ∨ ∃ mid, as = bs ++ b :: mid ∧
      bs' = mid ++ a :: as' := by
  rcases List.append_eq_append_iff.1 h with ⟨mid, rfl, hrest⟩ | ⟨mid, rfl, hrest⟩
  · cases mid with
    | nil =>
        cases hrest
        exact .inr (.inl ⟨(List.append_nil as).symm, rfl⟩)
    | cons m mid =>
        cases hrest
        exact .inl ⟨mid, rfl⟩
  · cases mid with
    | nil =>
        cases hrest
        exact .inr (.inl ⟨List.append_nil bs, rfl⟩)
    | cons m mid =>
        cases hrest
        exact .inr (.inr ⟨mid, rfl, rfl⟩)

/-- Once the head has been left, its end has been noticed or not; before, it has not. -/
theorem any_endsHead {v : Visit} (hfirst : HeadFirst v) {field : String}
    (hfield : (headFields v.node).getLast? = some field) {before after : List Visit} {c : Visit}
    (hparts : v.parts = before ++ c :: after) :
    before.any (endsHead field) = (!inHead v.node c && headCloses v.node) := by
  obtain ⟨heads, last, bodies, hsplit, hchild, hlast, hheads, hbodies⟩ := hfirst field hfield
  have hmem : field ∈ headFields v.node := List.mem_of_getLast? hfield
  have hnone : ∀ ws : List Visit, (∀ w ∈ ws, w.field? ≠ some field) →
      ws.any (endsHead field) = false := by
    intro ws hws
    rw [List.any_eq_false]
    intro w hw
    simp [endsHead, hws w hw]
  rcases append_cons_cases (hparts.symm.trans hsplit) with ⟨mid, rfl⟩ | ⟨rfl, rfl⟩ | ⟨mid, rfl, rfl⟩
  · -- the child stands in the head
    rw [hnone before fun w hw => (hheads w (by simp [hw])).2, (hheads c (by simp)).1]
    rfl
  · have hc : inHead v.node c = true := by simp [inHead, hlast, hmem]
    rw [hnone before fun w hw => (hheads w hw).2, hc]
    rfl
  · -- the child stands behind the head, so that the last node of the head is among those before it
    have hmid : ∀ w ∈ mid, w.field? ≠ some field := by
      intro w hw heq
      have hbody := hbodies w (by simp [hw])
      simp [inHead, heq, hmem] at hbody
    rw [List.any_append, List.any_cons, hnone heads fun w hw => (hheads w hw).2, hnone mid hmid,
      hbodies c (by simp), endsHead, hlast, headCloses, hfield]
    simp [hchild]

/-- The scopes around a child say of it what it inherits. -/
theorem runsPerIteration_passedAll {v : Visit} (hfirst : HeadFirst v) {scopes : List Scope}
    (habove : Above v.depth scopes) {before after : List Visit} {c : Visit}
    (hparts : v.parts = before ++ c :: after) :
    runsPerIteration (passedAll before (enter v scopes).1) =
      passDown v.node c (runsPerIteration scopes) := by
  have hdepth : ∀ w ∈ before, w.depth = v.depth + 1 := fun w hw =>
    Visit.depth_of_mem_parts (by rw [hparts]; exact List.mem_append_left _ hw)
  have hscope := scope?_eq v
  rw [passDown]
  by_cases hloop : isLoop v.node = true
  · rw [if_pos hloop] at hscope ⊢
    rw [enter_of_some hscope]
    cases hfield : (headFields v.node).getLast? with
    | none =>
        have hnil : headFields v.node = [] := List.getLast?_eq_none_iff.1 hfield
        rw [hnil, List.isEmpty_nil, passedAll_of_no_head hdepth (by simp)]
        simp [runsPerIteration, headCloses, inHead, hnil]
    | some field =>
        have hne : (headFields v.node).isEmpty = false := by
          rw [List.isEmpty_eq_false_iff]
          exact List.ne_nil_of_mem (List.mem_of_getLast? hfield)
        rw [passedAll_loop hdepth, runsPerIteration, any_endsHead hfirst hfield hparts, hne,
          Bool.false_or, Bool.or_comm]
  · rw [if_neg hloop] at hscope ⊢
    by_cases hfunction : isFunction v.node = true
    · rw [if_pos hfunction] at hscope
      rw [enter_of_some hscope, passedAll_of_no_head hdepth (by simp), runsPerIteration, hfunction]
      simp
    · rw [if_neg hfunction] at hscope
      have hkeep : passedAll before scopes = scopes := by
        refine passedAll_eq_self fun w hw => passed_eq_self fun scope hmem => ?_
        rw [hdepth w hw]
        exact Nat.succ_lt_succ (habove scope hmem)
      rw [enter_of_none hscope, hkeep, Bool.eq_false_iff.2 hfunction]
      simp

end Rule.AwaitInLoop
end Arborist
