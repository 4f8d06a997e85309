/-!
# Traversals of branching values

A value branches when it has an ordered list of parts, each of them smaller than the whole.  JSON
values and syntax trees branch, and so do pairs of either, so one traversal serves them all.

The traversal `run` keeps the events still to come in a list and never recurses below the part it is
looking at: nothing bounds the depth of the values it is used on.  The plain recursion that says
what it computes is `visit`, and `run_enter_cons` joins the two.
-/

namespace Arborist

universe u v

/-- Values with an ordered list of `parts`.  Under some weight every part is lighter than the whole;
which weight it is matters for termination only. -/
class Branching (α : Type u) where
  parts : α → List α
  exists_weight : ∃ weight : α → Nat, ∀ a, ∀ p ∈ parts a, weight p < weight a

inductive Control where
  | descend
  | skip
  deriving DecidableEq, Repr

/-- A state machine that is told of every value entered and left, and that decides on entering
whether the parts are visited. -/
structure Listener (α : Type u) (σ : Type v) where
  enter : α → σ → σ × Control
  leave : α → σ → σ

inductive Event (α : Type u) where
  | enter (a : α)
  | leave (a : α)

namespace Branching

variable {α : Type u} [Branching α] {σ : Type v}

noncomputable def weight : α → Nat :=
  Classical.choose (@exists_weight α _)

theorem weight_lt_of_mem_parts {a p : α} (h : p ∈ parts a) : weight p < weight a :=
  Classical.choose_spec (@exists_weight α _) a p h

/-- What holds of a value whenever it holds of its parts holds of every value. -/
theorem parts_induction {motive : α → Prop}
    (step : ∀ a, (∀ p ∈ parts a, motive p) → motive a) (a : α) :
    motive a :=
  step a fun p _ => parts_induction step p
termination_by weight a
decreasing_by exact weight_lt_of_mem_parts (by assumption)

/-- Tells the listener of one value: `enter` it, visit its parts in order unless they are to be
skipped, and `leave` it. -/
def visit (l : Listener α σ) (a : α) (s : σ) : σ :=
  match l.enter a s with
  | (s, .descend) => l.leave a ((parts a).attach.foldl (fun s p => visit l p.1 s) s)
  | (s, .skip) => l.leave a s
termination_by weight a
decreasing_by exact weight_lt_of_mem_parts p.2

def visitAll (l : Listener α σ) (as : List α) (s : σ) : σ :=
  as.foldl (fun s a => visit l a s) s

@[simp] theorem visitAll_nil (l : Listener α σ) (s : σ) : visitAll l [] s = s := rfl

@[simp] theorem visitAll_cons (l : Listener α σ) (a : α) (as : List α) (s : σ) :
    visitAll l (a :: as) s = visitAll l as (visit l a s) := rfl

theorem visit_eq (l : Listener α σ) (a : α) (s : σ) :
    visit l a s =
      match l.enter a s with
      | (s, .descend) => l.leave a (visitAll l (parts a) s)
      | (s, .skip) => l.leave a s := by
  rw [visit]
  split
  next t h =>
    rw [List.foldl_attach (l := parts a) (f := fun s p => visit l p s), visitAll]
  next => rfl

/-- The events of a value when nothing is skipped.  The events `ahead` of a list of pending ones
bound the number of turns that `run` takes. -/
def events (a : α) : List (Event α) :=
  .enter a :: (parts a).attach.flatMap (fun p => events p.1) ++ [.leave a]
termination_by weight a
decreasing_by exact weight_lt_of_mem_parts p.2

theorem events_eq (a : α) : events a = .enter a :: (parts a).flatMap events ++ [.leave a] := by
  rw [events, List.flatMap_subtype (g := events) fun _ _ => rfl, List.unattach_attach]

def ahead : Event α → List (Event α)
  | .enter a => events a
  | .leave a => [.leave a]

def entered (a : α) (rest : List (Event α)) : List (Event α) :=
  (parts a).map Event.enter ++ .leave a :: rest

theorem flatMap_ahead_enter (a : α) (rest : List (Event α)) :
    (Event.enter a :: rest).flatMap ahead = .enter a :: (entered a rest).flatMap ahead := by
  rw [List.flatMap_cons, ahead, events_eq, entered, List.flatMap_append, List.flatMap_map]
  simp [ahead]

/-- Works off a list of pending events.  Every turn takes at least one event off those that are
`ahead`. -/
def run (l : Listener α σ) (pending : List (Event α)) (s : σ) : σ :=
  match pending with
  | [] => s
  | .enter a :: rest =>
    match l.enter a s with
    | (s, .descend) => run l (entered a rest) s
    | (s, .skip) => run l (.leave a :: rest) s
  | .leave a :: rest => run l rest (l.leave a s)
termination_by (pending.flatMap ahead).length
decreasing_by
  · rw [flatMap_ahead_enter]
    exact Nat.lt_succ_self _
  · rw [flatMap_ahead_enter, entered, List.flatMap_append, List.length_cons, List.length_append]
    omega
  · rw [List.flatMap_cons]
    exact Nat.lt_succ_self _

def traverse (l : Listener α σ) (a : α) (s : σ) : σ :=
  run l [.enter a] s

/-- A pending value is visited, and then the rest is worked off. -/
theorem run_enter_cons (l : Listener α σ) (a : α) :
    ∀ (rest : List (Event α)) (s : σ), run l (.enter a :: rest) s = run l rest (visit l a s) := by
  induction a using parts_induction with
  | step a ih =>
    intro rest s
    have hall : ∀ (ps : List α), (∀ p ∈ ps, p ∈ parts a) → ∀ (rest : List (Event α)) (s : σ),
        run l (ps.map Event.enter ++ rest) s = run l rest (visitAll l ps s) := by
      intro ps
      induction ps with
      | nil => intro _ rest s; rfl
      | cons p ps ihps =>
        intro hps rest s
        rw [List.map_cons, List.cons_append, ih p (hps p List.mem_cons_self), visitAll_cons]
        exact ihps (fun q hq => hps q (List.mem_cons_of_mem p hq)) rest (visit l p s)
    rw [run, visit_eq]
    split
    next t h =>
      rw [entered, hall (parts a) (fun _ hp => hp), run]
    next t h =>
      rw [run]

/-- Working off the pending events of one value is the plain recursion on it. -/
theorem traverse_eq_visit (l : Listener α σ) (a : α) (s : σ) : traverse l a s = visit l a s := by
  rw [traverse, run_enter_cons, run]

/-! ### Folds

A fold gives every value a result that is computed from the results of its parts.  The results of
the values already left are kept in a list, the last one in front. -/

def folding (combine : α → List σ → σ) : Listener α (List σ) where
  enter _ results := (results, .descend)
  leave a results :=
    let n := (parts a).length
    combine a (results.take n).reverse :: results.drop n

/-- The result of a value, each result being combined from those of the parts.  `fold_eq` is the
recursion that it stands for. -/
def fold (combine : α → List σ → σ) (a : α) : σ :=
  match traverse (folding combine) a [] with
  | result :: _ => result
  | [] => combine a []

theorem visit_folding (combine : α → List σ → σ) (a : α) :
    (∀ results : List σ, visit (folding combine) a results = fold combine a :: results)
      ∧ fold combine a = combine a ((parts a).map (fold combine)) := by
  induction a using parts_induction with
  | step a ih =>
    have hall : ∀ ps : List α, (∀ p ∈ ps, p ∈ parts a) → ∀ results : List σ,
        visitAll (folding combine) ps results = (ps.map (fold combine)).reverse ++ results := by
      intro ps
      induction ps with
      | nil => intro _ results; rfl
      | cons p ps ihps =>
        intro hps results
        rw [visitAll_cons, (ih p (hps p List.mem_cons_self)).1,
          ihps fun q hq => hps q (List.mem_cons_of_mem p hq)]
        simp
    have hvisit : ∀ results : List σ, visit (folding combine) a results
        = combine a ((parts a).map (fold combine)) :: results := by
      intro results
      rw [visit_eq]
      change (folding combine).leave a (visitAll (folding combine) (parts a) results) = _
      rw [hall (parts a) fun _ hp => hp]
      simp only [folding]
      have hlength : (parts a).length = ((parts a).map (fold combine)).reverse.length := by simp
      rw [hlength, List.take_left, List.drop_left, List.reverse_reverse]
    have hfold : fold combine a = combine a ((parts a).map (fold combine)) := by
      conv => lhs; rw [fold, traverse_eq_visit, hvisit]
    exact ⟨fun results => by rw [hvisit, hfold], hfold⟩

theorem fold_eq (combine : α → List σ → σ) (a : α) :
    fold combine a = combine a ((parts a).map (fold combine)) :=
  (visit_folding combine a).2

/-! ### Comparison

Two values agree if they are alike and their parts agree one by one. -/

structure Pair (α : Type u) where
  left : α
  right : α

instance : Branching (Pair α) where
  parts p := List.zipWith Pair.mk (parts p.left) (parts p.right)
  exists_weight := by
    refine ⟨fun p => weight p.left, fun p q hq => ?_⟩
    rw [← List.map_uncurry_zip_eq_zipWith] at hq
    obtain ⟨c, hc, rfl⟩ := List.mem_map.1 hq
    exact weight_lt_of_mem_parts (List.of_mem_zip hc).1

def comparing (alike : α → α → Bool) : Listener (Pair α) Bool where
  enter p same :=
    if same && alike p.left p.right && (parts p.left).length == (parts p.right).length then
      (true, .descend)
    else (false, .skip)
  leave _ same := same

/-- Whether two values agree, given which values are `alike` apart from their parts.  Both sides are
traversed together, as a `Pair`. -/
def agree (alike : α → α → Bool) (a b : α) : Bool :=
  traverse (comparing alike) ⟨a, b⟩ true

end Branching
end Arborist
