import Arborist.Traversal

/-!
# The loop behind a traversal

`Branching.run` works off a list of pending events.  `Turns l n p s q t` counts its turns: in `n` of
them the loop gets from the events `p` and the state `s` to the events `q` and the state `t`.  Every
turn is one equation of `run`, so that turns do not change what `run` gives in the end, and a loop
that gets to the empty list has stopped.

The values that a traversal comes by when nothing is skipped are `Branching.nodes`, each of them
before its parts.  Two traversals whose listeners go hand in hand are compared by `visit_map`.
-/

namespace Arborist.Branching

universe u v w

variable {α : Type u} [Branching α] {σ : Type v} {τ : Type w}

/-- `n` turns of `run` lead from the events `p` in the state `s` to the events `q` in the state
`t`. -/
inductive Turns (l : Listener α σ) : Nat → List (Event α) → σ → List (Event α) → σ → Prop
  | none (p : List (Event α)) (s : σ) : Turns l 0 p s p s
  | descend {n : Nat} {a : α} {rest q : List (Event α)} {s s' t : σ} :
      l.enter a s = (s', .descend) → Turns l n (entered a rest) s' q t →
        Turns l (n + 1) (.enter a :: rest) s q t
  | skip {n : Nat} {a : α} {rest q : List (Event α)} {s s' t : σ} :
      l.enter a s = (s', .skip) → Turns l n (.leave a :: rest) s' q t →
        Turns l (n + 1) (.enter a :: rest) s q t
  | leave {n : Nat} {a : α} {rest q : List (Event α)} {s t : σ} :
      Turns l n rest (l.leave a s) q t → Turns l (n + 1) (.leave a :: rest) s q t

namespace Turns

variable {l : Listener α σ} {m n : Nat} {p q r : List (Event α)} {s t u : σ}

theorem trans (h : Turns l m p s q t) (h' : Turns l n q t r u) : Turns l (m + n) p s r u := by
  induction h with
  | none => rwa [Nat.zero_add]
  | descend henter _ ih =>
      rw [Nat.succ_add]
      exact .descend henter (ih h')
  | skip henter _ ih =>
      rw [Nat.succ_add]
      exact .skip henter (ih h')
  | leave _ ih =>
      rw [Nat.succ_add]
      exact .leave (ih h')

/-- Turns are turns of `run`: what it gives in the end is the same before and after them. -/
theorem run_eq (h : Turns l n p s q t) : run l p s = run l q t := by
  induction h with
  | none => rfl
  | descend henter _ ih =>
      rw [run, henter]
      exact ih
  | skip henter _ ih =>
      rw [run, henter]
      exact ih
  | leave _ ih =>
      rw [run]
      exact ih

end Turns

/-- A pending value is visited in a bounded number of turns, whatever is pending behind it.  There
is at most one turn for each of its `events`. -/
theorem exists_turns_visit (l : Listener α σ) (a : α) :
    ∀ (rest : List (Event α)) (s : σ),
      ∃ n ≤ (events a).length, Turns l n (.enter a :: rest) s rest (visit l a s) := by
  induction a using parts_induction with
  | step a ih =>
      -- the parts are worked off one after the other, each by its own hypothesis
      have hall : ∀ ps : List α, (∀ p ∈ ps, p ∈ parts a) → ∀ (rest : List (Event α)) (s : σ),
          ∃ n ≤ (ps.flatMap events).length,
            Turns l n (ps.map Event.enter ++ rest) s rest (visitAll l ps s) := by
        intro ps
        induction ps with
        | nil =>
            intro _ rest s
            exact ⟨0, Nat.le_refl 0, .none rest s⟩
        | cons p ps ihps =>
            intro hps rest s
            obtain ⟨m, hm, hp⟩ := ih p (hps p List.mem_cons_self) (ps.map Event.enter ++ rest) s
            obtain ⟨n, hn, hrest⟩ :=
              ihps (fun q hq => hps q (List.mem_cons_of_mem p hq)) rest (visit l p s)
            refine ⟨m + n, ?_, hp.trans hrest⟩
            rw [List.flatMap_cons, List.length_append]
            omega
      intro rest s
      have hlength : (events a).length = ((parts a).flatMap events).length + 1 + 1 := by
        rw [events_eq, List.length_append, List.length_cons, List.length_singleton]
      rw [visit_eq, hlength]
      rcases henter : l.enter a s with ⟨s', _ | _⟩
      · obtain ⟨n, hn, hparts⟩ := hall (parts a) (fun _ hp => hp) (.leave a :: rest) s'
        refine ⟨n + 1 + 1, by omega, ?_⟩
        exact .descend henter (hparts.trans (.leave (.none rest _)))
      · refine ⟨1 + 1, by omega, ?_⟩
        exact .skip henter (.leave (.none rest _))

/-! ### Values in the order of a traversal -/

/-- A value and everything below it, each before its parts and the parts in order. -/
def nodes (a : α) : List α :=
  fold (fun a below => a :: below.flatten) a

theorem nodes_eq (a : α) : nodes a = a :: (parts a).flatMap nodes := by
  rw [nodes, fold_eq, List.flatMap_def]
  rfl

theorem self_mem_nodes (a : α) : a ∈ nodes a := by
  rw [nodes_eq]
  exact List.mem_cons_self

/-- Going on from a value below reaches nothing new. -/
theorem mem_nodes_trans {a b c : α} (hb : b ∈ nodes a) (hc : c ∈ nodes b) : c ∈ nodes a := by
  induction a using parts_induction with
  | step a ih =>
      rw [nodes_eq, List.mem_cons, List.mem_flatMap] at hb
      rcases hb with rfl | ⟨p, hp, hb⟩
      · exact hc
      · rw [nodes_eq]
        exact List.mem_cons_of_mem a (List.mem_flatMap.2 ⟨p, hp, ih p hp hb⟩)

theorem mem_nodes_of_mem_parts {a p : α} (h : p ∈ parts a) : p ∈ nodes a := by
  rw [nodes_eq]
  exact List.mem_cons_of_mem a (List.mem_flatMap.2 ⟨p, h, self_mem_nodes p⟩)

/-- What holds of a value, and of the parts of every value it holds of, holds of everything
below. -/
theorem forall_mem_nodes {P : α → Prop} (hparts : ∀ a, P a → ∀ p ∈ parts a, P p) {a : α}
    (ha : P a) :
    ∀ b ∈ nodes a, P b := by
  induction a using parts_induction with
  | step a ih =>
      intro b hb
      rw [nodes_eq, List.mem_cons, List.mem_flatMap] at hb
      rcases hb with rfl | ⟨p, hp, hb⟩
      · exact ha
      · exact ih p hp (hparts a ha p hp) b hb

/-! ### Listeners that go hand in hand -/

/-- If the steps of two listeners keep their states related and agree on what is to be skipped, then
so do their traversals. -/
theorem visit_rel (l : Listener α σ) (l' : Listener α τ) {R : σ → τ → Prop}
    (henter : ∀ a s t, R s t → R (l.enter a s).1 (l'.enter a t).1 ∧
      (l.enter a s).2 = (l'.enter a t).2)
    (hleave : ∀ a s t, R s t → R (l.leave a s) (l'.leave a t)) (a : α) :
    ∀ s t, R s t → R (visit l a s) (visit l' a t) := by
  induction a using parts_induction with
  | step a ih =>
      have hall : ∀ ps : List α, (∀ p ∈ ps, p ∈ parts a) → ∀ s t, R s t →
          R (visitAll l ps s) (visitAll l' ps t) := by
        intro ps
        induction ps with
        | nil => intro _ s t h; exact h
        | cons p ps ihps =>
            intro hps s t h
            rw [visitAll_cons, visitAll_cons]
            exact ihps (fun q hq => hps q (List.mem_cons_of_mem p hq)) _ _
              (ih p (hps p List.mem_cons_self) s t h)
      intro s t h
      obtain ⟨hrel, hcontrol⟩ := henter a s t h
      rw [visit_eq, visit_eq]
      rcases hs : l.enter a s with ⟨s', c⟩
      rcases ht : l'.enter a t with ⟨t', c'⟩
      rw [hs, ht] at hrel hcontrol
      obtain rfl : c = c' := hcontrol
      cases c with
      | descend => exact hleave a _ _ (hall (parts a) (fun _ hp => hp) s' t' hrel)
      | skip => exact hleave a _ _ hrel

/-- If a map of states takes the steps of one listener to those of another, it takes the traversals
of one to those of the other. -/
theorem visit_map (l : Listener α σ) (l' : Listener α τ) (f : σ → τ)
    (henter : ∀ a s, l'.enter a (f s) = (f (l.enter a s).1, (l.enter a s).2))
    (hleave : ∀ a s, l'.leave a (f s) = f (l.leave a s)) (a : α) (s : σ) :
    visit l' a (f s) = f (visit l a s) := by
  refine (visit_rel l l' (R := fun s t => f s = t) ?_ ?_ a s (f s) rfl).symm
  · rintro a s _ rfl
    rw [henter]
    exact ⟨rfl, rfl⟩
  · rintro a s _ rfl
    exact (hleave a s).symm

/-- What every step at the values below a value keeps, a traversal of it keeps. -/
theorem visit_inv_nodes {l : Listener α σ} {I : σ → Prop} {a : α}
    (henter : ∀ b ∈ nodes a, ∀ s, I s → I (l.enter b s).1)
    (hleave : ∀ b ∈ nodes a, ∀ s, I s → I (l.leave b s)) (s : σ) (h : I s) : I (visit l a s) := by
  induction a using parts_induction generalizing s with
  | step a ih =>
      have hall : ∀ ps : List α, (∀ p ∈ ps, p ∈ parts a) → ∀ s, I s → I (visitAll l ps s) := by
        intro ps
        induction ps with
        | nil => intro _ s hs; exact hs
        | cons p ps ihps =>
            intro hps s hs
            have hp := hps p List.mem_cons_self
            have hbelow : ∀ b ∈ nodes p, b ∈ nodes a :=
              fun b hb => mem_nodes_trans (mem_nodes_of_mem_parts hp) hb
            rw [visitAll_cons]
            exact ihps (fun q hq => hps q (List.mem_cons_of_mem p hq)) _
              (ih p hp (fun b hb => henter b (hbelow b hb))
                (fun b hb => hleave b (hbelow b hb)) s hs)
      have hentered := henter a (self_mem_nodes a) s h
      rw [visit_eq]
      rcases hs : l.enter a s with ⟨s', _ | _⟩
      · rw [hs] at hentered
        exact hleave a (self_mem_nodes a) _ (hall (parts a) (fun _ hp => hp) s' hentered)
      · rw [hs] at hentered
        exact hleave a (self_mem_nodes a) _ hentered

/-- What every step keeps, a traversal keeps. -/
theorem visit_inv {l : Listener α σ} {I : σ → Prop} (henter : ∀ a s, I s → I (l.enter a s).1)
    (hleave : ∀ a s, I s → I (l.leave a s)) (a : α) (s : σ) (h : I s) : I (visit l a s) :=
  visit_inv_nodes (fun b _ => henter b) (fun b _ => hleave b) s h

end Arborist.Branching
