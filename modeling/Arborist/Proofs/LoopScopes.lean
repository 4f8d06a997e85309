import Arborist.Proofs.Walk
import Arborist.Rule.AwaitInLoop

/-!
# The scopes around a node

The rule on `await` in loops keeps the loops and functions around the current node in a list.
Whatever happens below a node, and whatever other rules skip there, the list is the same after a
visit of the node as before it, but for one thing: the innermost loop may have come to the end of
its head.  `passed v` is that change, computed from the node alone, and `leave_passedAll_parts` says
that what the children have changed is undone when the node is left.
-/

namespace Arborist.Rule.AwaitInLoop

/-! ### Loops, functions and heads -/

def isLoop (n : Node) : Bool :=
  n.kind == .forStatement || n.kind == .forInStatement || n.kind == .whileStatement || n.kind ==
    .doWhileStatement
    || n.kind == .forOfStatement && n.bool? "await" != some true

def isFunction (n : Node) : Bool :=
  n.kind == .functionDeclaration || n.kind == .functionExpression || n.kind ==
    .arrowFunctionExpression

/-- The fields of a loop that run only once.  Without a single node at its end there is no head. -/
def headFields (n : Node) : List String :=
  if n.kind = .forStatement ∧ (n.child? "init").isSome then ["init"]
  else if (n.kind = .forInStatement ∨ n.kind = .forOfStatement) ∧ (n.child? "right").isSome then
    ["left", "right"]
  else []

/-- A loop opens a scope whose head ends at the last of its head fields, and a function opens one
without. -/
theorem scope?_eq (v : Visit) :
    scope? v =
      if isLoop v.node then
        some (.loop v.depth (headFields v.node).getLast? (headFields v.node).isEmpty)
      else if isFunction v.node then some (.function v.depth)
      else none := by
  by_cases hfor : v.node.kind = .forStatement
  · cases hinit : v.node.child? "init" <;>
      simp [scope?, isLoop, headFields, loopScope, hfor, hinit, Kind.forStatement,
        Kind.forInStatement, Kind.forOfStatement]
  · by_cases hin : v.node.kind = .forInStatement
    · cases hright : v.node.child? "right" <;>
        simp [scope?, isLoop, headFields, loopScope, hin, hright, Kind.forStatement,
          Kind.forInStatement, Kind.forOfStatement]
    · by_cases hof : v.node.kind = .forOfStatement
      · by_cases hawait : v.node.bool? "await" = some true
        · simp [scope?, isLoop, isFunction, hof, hawait, Kind.forStatement, Kind.forInStatement,
            Kind.forOfStatement, Kind.whileStatement, Kind.doWhileStatement,
            Kind.functionDeclaration, Kind.functionExpression, Kind.arrowFunctionExpression]
        · cases hright : v.node.child? "right" <;>
            simp [scope?, isLoop, headFields, loopScope, hof, hawait, hright, Kind.forStatement,
              Kind.forInStatement, Kind.forOfStatement]
      · have hhead : headFields v.node = [] := by simp [headFields, hfor, hin, hof]
        simp only [scope?, isLoop, isFunction, loopScope, hhead, beq_eq_false_iff_ne.2 hfor,
          beq_eq_false_iff_ne.2 hin, beq_eq_false_iff_ne.2 hof]
        simp

theorem depth_of_scope? {v : Visit} {scope : Scope} (h : scope? v = some scope) :
    scope.depth = v.depth := by
  rw [scope?_eq] at h
  split at h
  · cases h
    rfl
  · split at h
    · cases h
      rfl
    · cases h

/-! ### What a visit does to the scopes -/

def passed (v : Visit) (scopes : List Scope) : List Scope :=
  leave v (enter v scopes).1

theorem enter_of_some {v : Visit} {scope : Scope} (h : scope? v = some scope)
    (scopes : List Scope) :
    (enter v scopes).1 = scope :: scopes := by
  rw [enter, h]

theorem enter_of_none {v : Visit} (h : scope? v = none) (scopes : List Scope) :
    (enter v scopes).1 = scopes := by
  rw [enter, h]
  show (if _ then (scopes, _) else (scopes, _)).1 = scopes
  split <;> rfl

theorem leave_of_depth_eq {v : Visit} {scope : Scope} (h : scope.depth = v.depth)
    (scopes : List Scope) :
    leave v (scope :: scopes) = scopes := by
  simp [leave, h]

/-- A node that opens a scope closes it again, and nothing else is noticed when it is left. -/
theorem passed_of_some {v : Visit} {scope : Scope} (h : scope? v = some scope)
    (scopes : List Scope) :
    passed v scopes = scopes := by
  rw [passed, enter_of_some h, leave_of_depth_eq (depth_of_scope? h)]

theorem passed_of_none {v : Visit} (h : scope? v = none) (scopes : List Scope) :
    passed v scopes = leave v scopes := by
  rw [passed, enter_of_none h]

/-- Leaving a node below the innermost scope changes at most whether the body of a loop has
begun. -/
theorem leave_of_depth_ne {v : Visit} {scope : Scope} (h : scope.depth ≠ v.depth)
    (scopes : List Scope) :
    leave v (scope :: scopes) =
      (match scope with
        | .loop depth (some field) inBody =>
            .loop depth (some field) (inBody || isBelow v depth field)
        | scope => scope) :: scopes := by
  have hne : (scope.depth == v.depth) = false := beq_eq_false_iff_ne.2 h
  simp only [leave, hne, Bool.false_eq_true, if_false]
  cases scope with
  | function depth => rfl
  | loop depth headEnd inBody =>
      cases headEnd with
      | none => rfl
      | some field => cases hbelow : isBelow v depth field <;> simp [hbelow]

theorem isBelow_eq_false {v : Visit} {depth : Nat} (h : v.depth ≠ depth + 1) (field : String) :
    isBelow v depth field = false := by
  rw [isBelow]
  split
  · rfl
  · simp [h]

/-- Visiting a node changes nothing of the scopes around its parent. -/
theorem passed_eq_self {v : Visit} {scopes : List Scope}
    (h : ∀ scope ∈ scopes, scope.depth + 1 < v.depth) :
    passed v scopes = scopes := by
  cases hscope : scope? v with
  | some scope => exact passed_of_some hscope scopes
  | none =>
      rw [passed_of_none hscope]
      cases scopes with
      | nil => rfl
      | cons scope scopes =>
          have hlt := h scope List.mem_cons_self
          rw [leave_of_depth_ne (by omega)]
          cases scope with
          | function depth => rfl
          | loop depth headEnd inBody =>
              cases headEnd with
              | none => rfl
              | some field =>
                  have hbelow : isBelow v depth field = false :=
                    isBelow_eq_false (by simp only [Scope.depth] at hlt; omega) field
                  simp [hbelow]

/-- Visiting a node changes at most the innermost scope around it, and not where that scope was
opened. -/
theorem exists_passed_cons {v : Visit} {scope : Scope} (h : scope.depth < v.depth)
    (scopes : List Scope) :
    ∃ scope', passed v (scope :: scopes) = scope' :: scopes ∧ scope'.depth = scope.depth := by
  cases hscope : scope? v with
  | some own => exact ⟨scope, passed_of_some hscope _, rfl⟩
  | none =>
      rw [passed_of_none hscope, leave_of_depth_ne (Nat.ne_of_lt h)]
      refine ⟨_, rfl, ?_⟩
      split <;> rfl

def Above (depth : Nat) (scopes : List Scope) : Prop :=
  ∀ scope ∈ scopes, scope.depth < depth

theorem Above.mono {depth depth' : Nat} {scopes : List Scope} (h : Above depth scopes)
    (hle : depth ≤ depth') :
    Above depth' scopes :=
  fun scope hscope => Nat.lt_of_lt_of_le (h scope hscope) hle

theorem Above.cons {depth : Nat} {scope : Scope} {scopes : List Scope} (h : Above depth scopes)
    (hscope : scope.depth < depth) : Above depth (scope :: scopes) := by
  intro inner hinner
  rcases List.mem_cons.1 hinner with rfl | hinner
  · exact hscope
  · exact h inner hinner

theorem Above.passed {v : Visit} {scopes : List Scope} (h : Above v.depth scopes) :
    Above v.depth (passed v scopes) := by
  cases scopes with
  | nil =>
      rw [passed_eq_self (by simp)]
      exact h
  | cons scope scopes =>
      obtain ⟨scope', heq, hdepth⟩ := exists_passed_cons (h scope List.mem_cons_self) scopes
      rw [heq]
      refine Above.cons (fun inner hinner => h inner (List.mem_cons_of_mem scope hinner)) ?_
      rw [hdepth]
      exact h scope List.mem_cons_self

theorem Above.enter {v : Visit} {scopes : List Scope} (h : Above v.depth scopes) :
    Above (v.depth + 1) (enter v scopes).1 := by
  cases hscope : scope? v with
  | none =>
      rw [enter_of_none hscope]
      exact h.mono (Nat.le_succ _)
  | some own =>
      rw [enter_of_some hscope]
      exact (h.mono (Nat.le_succ _)).cons (depth_of_scope? hscope ▸ Nat.lt_succ_self _)

def passedAll (vs : List Visit) (scopes : List Scope) : List Scope :=
  vs.foldl (fun scopes v => passed v scopes) scopes

theorem passedAll_eq_self {vs : List Visit} {scopes : List Scope}
    (h : ∀ v ∈ vs, passed v scopes = scopes) :
    passedAll vs scopes = scopes := by
  induction vs with
  | nil => rfl
  | cons v vs ih =>
      show passedAll vs (passed v scopes) = scopes
      rw [h v List.mem_cons_self]
      exact ih fun w hw => h w (List.mem_cons_of_mem v hw)

/-- A scope that waits for no end of a head stays as it is while the children are visited. -/
theorem passedAll_of_no_head {ws : List Visit} {scope : Scope}
    (hdepth : ∀ w ∈ ws, w.depth = scope.depth + 1)
    (hend : ∀ depth field inBody, scope ≠ .loop depth (some field) inBody) (scopes : List Scope) :
    passedAll ws (scope :: scopes) = scope :: scopes := by
  refine passedAll_eq_self fun w hw => ?_
  cases hown : scope? w with
  | some own => exact passed_of_some hown _
  | none =>
      rw [passed_of_none hown,
        leave_of_depth_ne (by rw [hdepth w hw]; exact Nat.ne_of_lt (Nat.lt_succ_self _))]
      split
      · exact (hend _ _ _ rfl).elim
      · rfl

theorem Above.passedAll {depth : Nat} {vs : List Visit} {scopes : List Scope}
    (h : Above depth scopes)
    (hdepth : ∀ v ∈ vs, v.depth = depth) : Above depth (passedAll vs scopes) := by
  induction vs generalizing scopes with
  | nil => exact h
  | cons v vs ih =>
      refine ih ?_ fun w hw => hdepth w (List.mem_cons_of_mem v hw)
      have hv := hdepth v List.mem_cons_self
      subst hv
      exact h.passed

theorem exists_passedAll_cons {vs : List Visit} {scope : Scope}
    (h : ∀ v ∈ vs, scope.depth < v.depth) (scopes : List Scope) :
    ∃ scope', passedAll vs (scope :: scopes) = scope' :: scopes ∧ scope'.depth = scope.depth := by
  induction vs generalizing scope with
  | nil => exact ⟨scope, rfl, rfl⟩
  | cons v vs ih =>
      obtain ⟨scope', heq, hdepth⟩ := exists_passed_cons (h v List.mem_cons_self) scopes
      obtain ⟨scope'', heq', hdepth'⟩ :=
        @ih scope' fun w hw => hdepth ▸ h w (List.mem_cons_of_mem v hw)
      refine ⟨scope'', ?_, hdepth'.trans hdepth⟩
      rw [← heq', ← heq]
      rfl

/-- When a node is left it finds the scopes as it opened them, up to what its children have seen of
its own. -/
theorem leave_passedAll_parts {v : Visit} {scopes : List Scope} (h : Above v.depth scopes) :
    leave v (passedAll v.parts (enter v scopes).1) = passed v scopes := by
  cases hscope : scope? v with
  | none =>
      rw [enter_of_none hscope, passedAll_eq_self, passed_of_none hscope]
      intro w hw
      refine passed_eq_self fun scope hmem => ?_
      rw [Visit.depth_of_mem_parts hw]
      exact Nat.succ_lt_succ (h scope hmem)
  | some own =>
      have hown := depth_of_scope? hscope
      have hlt : ∀ w ∈ v.parts, own.depth < w.depth := fun w hw => by
        rw [Visit.depth_of_mem_parts hw, hown]
        exact Nat.lt_succ_self _
      obtain ⟨own', heq, hdepth⟩ := exists_passedAll_cons hlt scopes
      rw [enter_of_some hscope, heq, leave_of_depth_eq (hdepth.trans hown), passed_of_some hscope]

end Arborist.Rule.AwaitInLoop
