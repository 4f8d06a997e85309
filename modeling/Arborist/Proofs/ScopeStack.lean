import Arborist.Proofs.LoopScopes
import Arborist.Proofs.Nesting
import Arborist.Proofs.SharedPass

/-!
# The scopes are a stack

The rule on `await` in loops opens a scope in one of several ways when it enters a node, and closes
one in a single way when it leaves a node: if the innermost scope is at the depth of the node.
Nothing in this mentions the node that opened the scope.  That it is always the right one follows
from how a pass is nested.  At every turn of its loop the scopes are those that the open nodes have
opened, up to whether the head of a loop is over (`Stacked`), and a turn keeps that, whatever other
rules skip.  So a depth that the rule comes by belongs to one open node only, and comparing depths
is as good as comparing nodes (`scopes_known_by_depth`).
-/

namespace Arborist

open Branching

/-! ### One rule among others -/

def Pass.HasBetween (p : Pass) (before : List Rule) (x : Running) (after : List Rule) : Prop :=
  ∃ earlier later, p.running = earlier ++ x :: later ∧ earlier.map Running.rule = before ∧
    later.map Running.rule = after

namespace Pass.HasBetween

variable {p : Pass} {before after : List Rule} {x : Running}

/-- At an event every rule is called once, in some scene, and stays at its place. -/
theorem called (h : p.HasBetween before x after) {call : Running → Scene → Running × Scene}
    (hrule : ∀ y s, (call y s).1.rule = y.rule) (s : Scene) (context : Context) :
    ∃ t, (Pass.mk (callAll call p.running s).1 context).HasBetween before (call x t).1 after := by
  obtain ⟨earlier, later, hrunning, rfl, rfl⟩ := h
  have hcall : (callAll call p.running s).1 =
      (callAll call earlier s).1 ++ (call x (callAll call earlier s).2).1 ::
        (callAll call later (call x (callAll call earlier s).2).2).1 := by
    rw [hrunning, callAll_append, callAll_cons]
  exact ⟨_, _, _, hcall, map_callAll hrule _ _, map_callAll hrule _ _⟩

theorem enter (h : p.HasBetween before x after) (v : Visit) :
    ∃ s, (dispatching.enter v p).1.HasBetween before (x.enter v s).1 after :=
  h.called (fun _ _ => rfl) _ _

theorem leave (h : p.HasBetween before x after) (v : Visit) :
    ∃ s, (dispatching.leave v p).HasBetween before (x.leave v s).1 after :=
  h.called (fun _ _ => rfl) _ _

end Pass.HasBetween

namespace Rule

theorem start_hasBetween (before after : List Rule) (r : Rule) (context : Context) :
    (start (before ++ r :: after) context).HasBetween before ⟨r, r.create context⟩ after := by
  have hrule : ∀ rules : List Rule,
      (rules.map fun r => (⟨r, r.create context⟩ : Running)).map Running.rule = rules := by
    intro rules
    rw [List.map_map]
    exact List.map_id rules
  refine ⟨_, _, ?_, hrule before, hrule after⟩
  rw [start, List.map_append, List.map_cons]

/-- The loop in which `rules` are run comes to the events `pending`, and the rules to the states in
`p`. -/
def ComesTo (rules : List Rule) (root : Node) (context : Context) (pending : List (Event Visit))
    (p : Pass) : Prop :=
  ∃ n, Turns dispatching n [.enter (Visit.ofRoot root)] (start rules context) pending p

theorem comesTo_run (rules : List Rule) (root : Node) (context : Context) :
    ComesTo rules root context [] (run rules root context) := by
  obtain ⟨n, -, hturns⟩ :=
    exists_turns_visit dispatching (Visit.ofRoot root) [] (start rules context)
  rw [run, Node.walk, Visit.walk, traverse_eq_visit]
  exact ⟨n, hturns⟩

namespace AwaitInLoop

/-! ### Scopes and their nodes -/

/-- A scope is that of the node of `v`: that of a loop if the node is a loop, that of a function if
it is a function. -/
def Scope.IsOf (v : Visit) : Scope → Prop
  | .loop depth _ _ => isLoop v.node = true ∧ depth = v.depth
  | .function depth => isFunction v.node = true ∧ depth = v.depth

def Scope.asOpened : Scope → Scope
  | .loop depth headEnd _ => .loop depth headEnd headEnd.isNone
  | .function depth => .function depth

def opensScope (v : Visit) : Bool := isLoop v.node || isFunction v.node

/-- The scopes, from the bottom to the top, are those of the loops and functions on a path and of
nothing else. -/
def Mirrors (scopes : List Scope) (path : List Visit) : Prop :=
  List.Forall₂ (fun s v => Scope.IsOf v s) scopes.reverse (path.filter opensScope)

theorem Scope.depth_asOpened (s : Scope) : s.asOpened.depth = s.depth := by
  cases s <;> rfl

theorem Scope.isOf_of_scope? {v : Visit} {s : Scope} (h : scope? v = some s.asOpened) :
    s.IsOf v := by
  rw [scope?_eq] at h
  cases s with
  | loop depth headEnd inBody =>
      split at h
      next hloop => exact ⟨hloop, (Scope.loop.inj (Option.some.inj h)).1.symm⟩
      next => split at h <;> cases h
  | function depth =>
      split at h
      next => cases h
      next =>
        split at h
        next hfunction => exact ⟨hfunction, (Scope.function.inj (Option.some.inj h)).symm⟩
        next => cases h

theorem asOpened_of_scope? {v : Visit} {s : Scope} (h : scope? v = some s) : s.asOpened = s := by
  rw [scope?_eq] at h
  split at h
  · cases h
    cases headFields v.node <;> simp [Scope.asOpened]
  · split at h <;> cases h
    rfl

theorem isSome_scope? (v : Visit) : (scope? v).isSome = opensScope v := by
  rw [scope?_eq, opensScope]
  cases isLoop v.node <;> cases isFunction v.node <;> rfl

theorem mirrors_reverse {scopes : List Scope} {vs : List Visit}
    (h : scopes.map Scope.asOpened = vs.filterMap scope?) : Mirrors scopes vs.reverse := by
  rw [Mirrors, List.filter_reverse, List.forall₂_reverse_iff]
  induction vs generalizing scopes with
  | nil =>
      rw [List.map_eq_nil_iff.1 h]
      exact .nil
  | cons v vs ih =>
      have hopens := isSome_scope? v
      cases hscope : scope? v with
      | none =>
          rw [List.filterMap_cons_none hscope] at h
          rw [List.filter_cons_of_neg (by rw [← hopens, hscope]; simp)]
          exact ih h
      | some own =>
          rw [List.filterMap_cons_some hscope] at h
          obtain ⟨s, rest, rfl, hs, hrest⟩ := List.map_eq_cons_iff.1 h
          rw [List.filter_cons_of_pos (by rw [← hopens, hscope]; rfl)]
          exact .cons (Scope.isOf_of_scope? (hs ▸ hscope)) (ih hrest)

/-! ### One event -/

theorem enter_cases (v : Visit) (scopes : List Scope) :
    (enter v scopes).1.map Scope.asOpened = (scope? v).toList ++ scopes.map Scope.asOpened ∧
      ((enter v scopes).1 = scopes ∨ ∃ own, Scope.IsOf v own ∧
        (enter v scopes).1 = own :: scopes) := by
  cases hscope : scope? v with
  | none =>
      rw [enter_of_none hscope]
      exact ⟨rfl, .inl rfl⟩
  | some own =>
      have hown := asOpened_of_scope? hscope
      rw [enter_of_some hscope, List.map_cons, hown]
      exact ⟨rfl, .inr ⟨own, Scope.isOf_of_scope? (hown.symm ▸ hscope), rfl⟩⟩

/-- If the scopes are those of a node and of nodes further out, leaving the node takes its own from
the top, or it has none and all of them stay. -/
theorem leave_cases {v : Visit} {scopes : List Scope} {around : List Visit}
    (h : scopes.map Scope.asOpened = (v :: around).filterMap scope?)
    (hdepth : ∀ w ∈ around, w.depth < v.depth) :
    (leave v scopes).map Scope.asOpened = around.filterMap scope? ∧
      ((∃ own, Scope.IsOf v own ∧ scopes = own :: leave v scopes) ∨
        opensScope v = false ∧ (leave v scopes).map Scope.asOpened =
          scopes.map Scope.asOpened) := by
  cases hscope : scope? v with
  | some own =>
      rw [List.filterMap_cons_some hscope] at h
      obtain ⟨s, rest, rfl, hs, hrest⟩ := List.map_eq_cons_iff.1 h
      have heq : s.depth = v.depth := by rw [← s.depth_asOpened, hs, depth_of_scope? hscope]
      rw [leave_of_depth_eq heq]
      exact ⟨hrest, .inl ⟨s, Scope.isOf_of_scope? (hs ▸ hscope), rfl⟩⟩
  | none =>
      rw [List.filterMap_cons_none hscope] at h
      have hkeep : (leave v scopes).map Scope.asOpened = scopes.map Scope.asOpened := by
        cases scopes with
        | nil => rfl
        | cons s rest =>
            -- the scope at the top belongs to a node further out
            obtain ⟨w, hw, hs⟩ :=
              List.mem_filterMap.1 (h ▸ List.mem_cons_self : s.asOpened ∈ around.filterMap scope?)
            have hne : s.depth ≠ v.depth := by
              rw [← s.depth_asOpened, depth_of_scope? hs]
              exact Nat.ne_of_lt (hdepth w hw)
            rw [leave_of_depth_ne hne]
            cases s with
            | function depth => rfl
            | loop depth headEnd inBody => cases headEnd <;> rfl
      exact ⟨hkeep.trans h, .inr ⟨by rw [← isSome_scope?, hscope]; rfl, hkeep⟩⟩

/-! ### A pass -/

/-- At a turn of the loop the scopes are those that the `opened` nodes have opened, up to whether
the body of a loop has begun.  Nothing is asked of the rules before and behind. -/
structure Stacked (before after : List Rule) (root : Node) (pending : List (Event Visit)) (p : Pass)
    (scopes : List Scope) : Prop where
  nested : Nested (Visit.ofRoot root) pending
  hasBetween : p.HasBetween before ⟨rule, scopes⟩ after
  scopes_eq : scopes.map Scope.asOpened = (opened pending).filterMap scope?

namespace Stacked

variable {before after : List Rule} {root : Node} {pending : List (Event Visit)} {p : Pass}
  {scopes : List Scope}
  {v : Visit}

theorem start (before after : List Rule) (root : Node) (context : Context) :
    Stacked before after root [.enter (Visit.ofRoot root)]
      (Rule.start (before ++ rule :: after) context) [] where
  nested := ⟨.here, trivial⟩
  hasBetween := start_hasBetween before after rule context
  scopes_eq := rfl

theorem enter (h : Stacked before after root (.enter v :: pending) p scopes) :
    Stacked before after root (.leave v :: pending) (dispatching.enter v p).1
      (AwaitInLoop.enter v scopes).1 where
  nested := h.nested
  hasBetween := (h.hasBetween.enter v).elim fun _ hs => hs
  scopes_eq := by
    rw [(enter_cases v scopes).1, h.scopes_eq, opened_enter, opened_leave, List.filterMap_cons]
    cases scope? v <;> rfl

theorem descend (h : Stacked before after root (.enter v :: pending) p scopes) :
    Stacked before after root (entered v pending) (dispatching.enter v p).1
      (AwaitInLoop.enter v scopes).1 where
  nested := h.nested.entered
  hasBetween := h.enter.hasBetween
  scopes_eq := by rw [h.enter.scopes_eq, entered, opened_map_enter]

theorem depth_lt (h : Stacked before after root (.leave v :: pending) p scopes) :
    ∀ w ∈ opened pending, w.depth < v.depth :=
  fun w hw => Visit.depth_lt_of_descent h.nested.1 w (List.mem_reverse.2 hw)

theorem leave (h : Stacked before after root (.leave v :: pending) p scopes) :
    Stacked before after root pending (dispatching.leave v p) (AwaitInLoop.leave v scopes) where
  nested := h.nested.2
  hasBetween := (h.hasBetween.leave v).elim fun _ hs => hs
  scopes_eq := (leave_cases h.scopes_eq h.depth_lt).1

/-- When a node is left, every scope is that of one of the open nodes.  Its depth is that of the
node to be left if it is the scope of this very node, and one less if it is that of the node that
it is a part of; so `AwaitInLoop.leave` may go by depths. -/
theorem exists_node (h : Stacked before after root (.leave v :: pending) p scopes) {s : Scope}
    (hs : s ∈ scopes) :
    ∃ w ∈ v :: opened pending, scope? w = some s.asOpened ∧ (s.depth = v.depth ↔ w = v) ∧
      (s.depth + 1 = v.depth ↔ v ∈ w.parts) := by
  have hmem : s.asOpened ∈ (v :: opened pending).filterMap scope? :=
    h.scopes_eq ▸ List.mem_map_of_mem hs
  obtain ⟨w, hw, hscope⟩ := List.mem_filterMap.1 hmem
  have hdepth : s.depth = w.depth := by rw [← s.depth_asOpened, depth_of_scope? hscope]
  refine ⟨w, hw, hscope, ?_⟩
  rw [hdepth]
  rcases List.mem_cons.1 hw with rfl | hw
  · refine ⟨iff_of_true rfl rfl, iff_of_false (Nat.succ_ne_self _) fun hpart => ?_⟩
    exact Nat.succ_ne_self _ (Visit.depth_of_mem_parts hpart).symm
  · have hlt := h.depth_lt w hw
    refine ⟨⟨fun heq => absurd heq (Nat.ne_of_lt hlt), fun heq => congrArg Visit.depth heq⟩, ?_⟩
    exact (Visit.mem_parts_iff_of_descent h.nested.1 (List.mem_reverse.2 hw)).symm

theorem mirrors (h : Stacked before after root (.leave v :: pending) p scopes) :
    Mirrors scopes ((opened pending).reverse ++ [v]) := by
  have hmirrors := mirrors_reverse h.scopes_eq
  rwa [opened_leave, List.reverse_cons] at hmirrors

end Stacked

/-- The scopes are a stack at every turn of a pass. -/
theorem exists_stacked {before after : List Rule} {root : Node} {context : Context}
    {pending : List (Event Visit)}
    {p : Pass} (h : ComesTo (before ++ rule :: after) root context pending p) :
    ∃ scopes, Stacked before after root pending p scopes := by
  obtain ⟨n, hturns⟩ := h
  refine hturns.inv (I := fun pending p => ∃ scopes,
    Stacked before after root pending p scopes) ?_ ?_ ?_
    ⟨[], .start before after root context⟩
  · rintro v pending p ⟨scopes, hs⟩
    exact ⟨_, hs.descend⟩
  · rintro v pending p ⟨scopes, hs⟩
    exact ⟨_, hs.enter⟩
  · rintro v pending p ⟨scopes, hs⟩
    exact ⟨_, hs.leave⟩

/-- Whatever a pass comes to, the scope at a depth is that of the open node at that depth. -/
theorem scopes_known_by_depth {before after : List Rule} {root : Node} {context : Context}
    {v : Visit} {pending : List (Event Visit)} {p : Pass}
    (h : ComesTo (before ++ rule :: after) root context (.leave v :: pending) p) :
    ∃ scopes : List Scope, p.HasBetween before ⟨rule, scopes⟩ after ∧ ∀ s ∈ scopes,
      ∃ w ∈ v :: opened pending, scope? w = some s.asOpened ∧ (s.depth = v.depth ↔ w = v) ∧
        (s.depth + 1 = v.depth ↔ v ∈ w.parts) := by
  obtain ⟨scopes, hs⟩ := exists_stacked h
  exact ⟨scopes, hs.hasBetween, fun s hmem => hs.exists_node hmem⟩

/-- Wherever the rule stands among rules that skip what they like, after it has entered a node its
scopes are those of the loops and functions on the way from the root to the node, and after it has
left the node they are those without the node.  A scope is only ever put on the top when its node is
entered and taken from the top when its node is left, and none is left over in the end. -/
theorem scopes_mirror_way (before after : List Rule) (root : Node) (context : Context) :
    (∀ v pending p, ComesTo (before ++ rule :: after) root context (.enter v :: pending) p →
      ∃ path scopes, Visit.IsWay root path v ∧ p.HasBetween before ⟨rule, scopes⟩ after ∧
        (dispatching.enter v p).1.HasBetween before ⟨rule, (enter v scopes).1⟩ after ∧
        Mirrors (enter v scopes).1 path ∧
        ((enter v scopes).1 = scopes ∨ ∃ own, Scope.IsOf v own ∧
          (enter v scopes).1 = own :: scopes)) ∧
    (∀ v pending p, ComesTo (before ++ rule :: after) root context (.leave v :: pending) p →
      ∃ path scopes, Visit.IsWay root path v ∧ p.HasBetween before ⟨rule, scopes⟩ after ∧
        (dispatching.leave v p).HasBetween before ⟨rule, leave v scopes⟩ after ∧
        Mirrors scopes path ∧ Mirrors (leave v scopes) path.dropLast ∧
        ((∃ own, Scope.IsOf v own ∧ scopes = own :: leave v scopes) ∨
          opensScope v = false ∧ (leave v scopes).map Scope.asOpened = scopes.map Scope.asOpened)) ∧
    (run (before ++ rule :: after) root context).HasBetween before ⟨rule, []⟩ after := by
  refine ⟨fun v pending p h => ?_, fun v pending p h => ?_, ?_⟩
  · obtain ⟨scopes, hs⟩ := exists_stacked h
    exact ⟨_, scopes, Visit.isWay_of_descent hs.nested.1, hs.hasBetween, hs.enter.hasBetween,
      hs.enter.mirrors, (enter_cases v scopes).2⟩
  · obtain ⟨scopes, hs⟩ := exists_stacked h
    refine ⟨_, scopes, Visit.isWay_of_descent hs.nested.1, hs.hasBetween, hs.leave.hasBetween,
      hs.mirrors, ?_, (leave_cases hs.scopes_eq hs.depth_lt).2⟩
    rw [List.dropLast_concat]
    exact mirrors_reverse hs.leave.scopes_eq
  · obtain ⟨scopes, hs⟩ := exists_stacked (comesTo_run (before ++ rule :: after) root context)
    obtain rfl : scopes = [] := List.map_eq_nil_iff.1 hs.scopes_eq
    exact hs.hasBetween

def callbackLoop : Node :=
  ⟨.whileStatement, none,
    [⟨"body", .single ⟨.functionExpression, none, [⟨"id", .single (.ofKind .identifier)⟩], [],
      none⟩⟩], [], none⟩

/-- The function is left right after it was entered, since another rule skips its name. -/
theorem comesTo_callbackLoop :
    ∃ v p, v ∈ (Visit.ofRoot callbackLoop).parts ∧ v.node.kind = .functionExpression ∧
      ComesTo ([functionSkipper.rule] ++ rule :: []) callbackLoop .empty
        [.leave v, .leave (Visit.ofRoot callbackLoop)] p :=
  ⟨_, _, List.mem_cons_self, rfl, 2, .descend rfl (.skip rfl (.none _ _))⟩

theorem scopes_mirror_way_callbackLoop :
    ∃ v p scopes, v.node.kind = .functionExpression ∧
      ComesTo ([functionSkipper.rule] ++ rule :: []) callbackLoop .empty
        [.leave v, .leave (Visit.ofRoot callbackLoop)] p ∧
      Visit.IsWay callbackLoop [Visit.ofRoot callbackLoop, v] v ∧
        p.HasBetween [functionSkipper.rule] ⟨rule, scopes⟩ [] ∧
      Mirrors scopes [Visit.ofRoot callbackLoop, v] ∧
        Mirrors (leave v scopes) [Visit.ofRoot callbackLoop] ∧
      (run ([functionSkipper.rule] ++ rule :: []) callbackLoop .empty).HasBetween
        [functionSkipper.rule] ⟨rule, []⟩ [] := by
  obtain ⟨v, p, hv, hkind, hcomes⟩ := comesTo_callbackLoop
  obtain ⟨-, hleave, hrun⟩ := scopes_mirror_way [functionSkipper.rule] [] callbackLoop .empty
  obtain ⟨path, scopes, hway, hbetween, -, hmirrors, hmirrors', -⟩ := hleave v _ p hcomes
  obtain rfl : [Visit.ofRoot callbackLoop, v] = path := hway.unique _ (.down .here hv)
  exact ⟨v, p, scopes, hkind, hcomes, hway, hbetween, hmirrors, hmirrors', hrun⟩

end AwaitInLoop
end Rule
end Arborist
