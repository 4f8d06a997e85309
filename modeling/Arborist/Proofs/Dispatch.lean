import Arborist.Proofs.Traversal
import Arborist.Rule.Dispatch

/-!
# One rule at work

All rules share a walk.  A single rule has it to itself: `Rule.alone` is the listener that the walk
then has, with no list of rules around the state, and `reports_singleton` joins the two.
-/

namespace Arborist

universe u v

namespace Context

@[simp] theorem add_nil (c : Context) : c.add [] = c := by
  cases c
  rfl

theorem toList_reports_add (c : Context) (rs : List Report) :
    (c.add rs).reports.toList = c.reports.toList ++ rs :=
  Array.toList_appendList

theorem add_add (c : Context) (rs rs' : List Report) : (c.add rs).add rs' = c.add (rs ++ rs') := by
  have h : ((c.add rs).add rs').reports.toList = (c.add (rs ++ rs')).reports.toList := by
    rw [toList_reports_add, toList_reports_add, toList_reports_add, List.append_assoc]
  cases h' : (c.add rs).add rs'
  cases h'' : c.add (rs ++ rs')
  rw [h', h''] at h
  exact congrArg Context.mk (Array.toList_inj.1 h)

end Context

theorem callAll_cons {α : Type u} (call : α → Scene → α × Scene) (x : α) (xs : List α) (s : Scene) :
    callAll call (x :: xs) s =
      ((call x s).1 :: (callAll call xs (call x s).2).1, (callAll call xs (call x s).2).2) :=
  rfl

/-- If a map takes what is called to something else that leaves the same scenes behind, calling goes
through it. -/
theorem callAll_map {α : Type u} {β : Type v} (call : α → Scene → α × Scene)
    (call' : β → Scene → β × Scene) (f : α → β)
    (h : ∀ x s, call' (f x) s = (f (call x s).1, (call x s).2)) (xs : List α) (s : Scene) :
    callAll call' (xs.map f) s = ((callAll call xs s).1.map f, (callAll call xs s).2) := by
  induction xs generalizing s with
  | nil => rfl
  | cons x xs ih => rw [List.map_cons, callAll_cons, callAll_cons, h, ih, List.map_cons]

theorem callAll_append {α : Type u} (call : α → Scene → α × Scene) (xs ys : List α) (s : Scene) :
    callAll call (xs ++ ys) s =
      ((callAll call xs s).1 ++ (callAll call ys (callAll call xs s).2).1,
        (callAll call ys (callAll call xs s).2).2) := by
  induction xs generalizing s with
  | nil => rfl
  | cons x xs ih =>
      rw [List.cons_append, callAll_cons, callAll_cons, ih]
      rfl

/-- What no call changes, calling all does not change. -/
theorem map_callAll {α : Type u} {β : Type v} {call : α → Scene → α × Scene} {f : α → β}
    (h : ∀ x s, f (call x s).1 = f x) (xs : List α) (s : Scene) :
    (callAll call xs s).1.map f = xs.map f := by
  induction xs generalizing s with
  | nil => rfl
  | cons x xs ih => rw [callAll_cons, List.map_cons, List.map_cons, h, ih]

namespace Rule

/-- A rule that has a walk to itself.  `run_singleton` says that a pass of one rule is this walk. -/
def alone (r : Rule) : Listener Visit (r.State × Context) where
  enter v s :=
    let (state, reaction) := r.enter v ⟨s.2, false⟩ s.1
    ((state, s.2.add reaction.reports), if reaction.skip then .skip else .descend)
  leave v s :=
    let (state, reaction) := r.leave v ⟨s.2, false⟩ s.1
    (state, s.2.add reaction.reports)

theorem run_singleton (r : Rule) (root : Node) (c : Context) :
    run [r] root c =
      let s := Branching.visit r.alone (Visit.ofRoot root) (r.create c, c)
      ⟨[⟨r, s.1⟩], s.2⟩ := by
  rw [run, Node.walk, Visit.walk, Branching.traverse_eq_visit]
  exact Branching.visit_map r.alone dispatching (fun s => ⟨[⟨r, s.1⟩], s.2⟩)
    (fun _ _ => rfl) (fun _ _ => rfl) (Visit.ofRoot root) (r.create c, c)

theorem reports_singleton (r : Rule) (root : Node) :
    reports [r] root =
      (Branching.visit r.alone (Visit.ofRoot root) (r.create .empty, .empty)).2.reports := by
  rw [reports, reportInto, run_singleton]

/-- A node without parts is entered and left, whatever the rules ask for. -/
theorem run_ofKind (rules : List Rule) (kind : Kind) (c : Context) :
    run rules (.ofKind kind) c =
      dispatching.leave (Visit.ofRoot (.ofKind kind))
        (dispatching.enter (Visit.ofRoot (.ofKind kind)) (start rules c)).1 := by
  rw [run, Node.walk, Visit.walk, Branching.traverse_eq_visit, Branching.visit_eq]
  split
  next s h => exact congrArg (dispatching.leave _) (congrArg Prod.fst h).symm
  next s h => exact congrArg (dispatching.leave _) (congrArg Prod.fst h).symm

end Rule
end Arborist
