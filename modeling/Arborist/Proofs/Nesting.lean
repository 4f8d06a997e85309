import Arborist.Proofs.Events

/-!
# What is open during a traversal

The loop behind a traversal keeps the events that are still to come.  A value that has been entered
and not been left yet is one whose leaving is among them, so `opened` reads the open values off the
pending events.  They are nested: at any time they make up the way from the value at the top down to
the one that comes next, whatever the listener skips (`Nested`).  Where every value occurs once
there is only one such way (`Descent.unique`).

`Turns.inv` is how facts like this are carried through the loop: what every turn keeps holds all the
time.
-/

namespace Arborist

universe u v

namespace Branching

variable {α : Type u} {σ : Type v}

/-- The values that have been entered and not been left yet, the innermost first: those of which the
leaving is pending. -/
def opened (pending : List (Event α)) : List α :=
  pending.filterMap fun
    | .enter _ => none
    | .leave a => some a

@[simp] theorem opened_enter (a : α) (pending : List (Event α)) :
    opened (.enter a :: pending) = opened pending := rfl

@[simp] theorem opened_leave (a : α) (pending : List (Event α)) :
    opened (.leave a :: pending) = a :: opened pending :=
  rfl

theorem opened_map_enter (as : List α) (pending : List (Event α)) :
    opened (as.map .enter ++ pending) = opened pending := by
  induction as with
  | nil => rfl
  | cons a as ih => exact ih

variable [Branching α]

/-- What every turn keeps, the loop keeps. -/
theorem Turns.inv {l : Listener α σ} {I : List (Event α) → σ → Prop}
    (hdescend : ∀ a pending s, I (.enter a :: pending) s → I (entered a pending) (l.enter a s).1)
    (hskip : ∀ a pending s, I (.enter a :: pending) s → I (.leave a :: pending) (l.enter a s).1)
    (hleave : ∀ a pending s, I (.leave a :: pending) s → I pending (l.leave a s))
    {n : Nat} {p q : List (Event α)} {s t : σ} (h : Turns l n p s q t) (hp : I p s) : I q t := by
  induction h with
  | none => exact hp
  | descend henter _ ih =>
      have hnext := hdescend _ _ _ hp
      rw [henter] at hnext
      exact ih hnext
  | skip henter _ ih =>
      have hnext := hskip _ _ _ hp
      rw [henter] at hnext
      exact ih hnext
  | leave _ ih => exact ih (hleave _ _ _ hp)

/-! ### Ways down -/

/-- The values on the way from `a` down to another value, both of them included. -/
inductive Descent (a : α) : List α → α → Prop
  | here : Descent a [a] a
  | down {path : List α} {b c : α} : Descent a path b → c ∈ parts b → Descent a (path ++ [c]) c

theorem Descent.mem_nodes {a b : α} {path : List α} (h : Descent a path b) : b ∈ nodes a := by
  induction h with
  | here => exact self_mem_nodes a
  | down _ hc ih => exact mem_nodes_trans ih (mem_nodes_of_mem_parts hc)

theorem Descent.mem {a b : α} {path : List α} (h : Descent a path b) : b ∈ path := by
  cases h with
  | here => exact List.mem_singleton_self a
  | down _ _ => exact List.mem_append_right _ (List.mem_singleton_self b)

theorem not_mem_parts_of_mem_nodes {a b : α} (h : b ∈ nodes a) : a ∉ parts b := fun hmem =>
  not_mem_below h (List.mem_flatMap.2 ⟨a, hmem, self_mem_nodes a⟩)

/-- Where every value occurs once, it is a part of one other only. -/
theorem parent_unique {a b b' c : α} (h : (nodes a).Nodup) (hb : b ∈ nodes a) (hb' : b' ∈ nodes a)
    (hc : c ∈ parts b)
    (hc' : c ∈ parts b') : b = b' := by
  induction a using parts_induction with
  | step a ih =>
      have hnodes : ∀ {p x}, x ∈ nodes p → c ∈ parts x → c ∈ nodes p := fun hx hcx =>
        mem_nodes_trans hx (mem_nodes_of_mem_parts hcx)
      -- a part of the whole is not also further down, below itself or below another part
      have hwhole : ∀ x ∈ nodes a, c ∈ parts a → c ∈ parts x → x = a := by
        intro x hx hca hcx
        rw [nodes_eq, List.mem_cons, List.mem_flatMap] at hx
        rcases hx with rfl | ⟨p, hp, hx⟩
        · rfl
        · obtain rfl := part_unique h hca hp (self_mem_nodes c) (hnodes hx hcx)
          exact absurd hcx (not_mem_parts_of_mem_nodes hx)
      by_cases hca : c ∈ parts a
      · rw [hwhole b hb hca hc, hwhole b' hb' hca hc']
      · have hpart : ∀ x ∈ nodes a, c ∈ parts x → ∃ p ∈ parts a, x ∈ nodes p := by
          intro x hx hcx
          rw [nodes_eq, List.mem_cons, List.mem_flatMap] at hx
          rcases hx with rfl | hx
          · exact absurd hcx hca
          · exact hx
        obtain ⟨p, hp, hb⟩ := hpart b hb hc
        obtain ⟨p', hp', hb'⟩ := hpart b' hb' hc'
        obtain rfl := part_unique h hp hp' (hnodes hb hc) (hnodes hb' hc')
        exact ih p hp (nodup_of_mem_parts h hp) hb hb'

/-- Where every value occurs once, there is one way down to it only. -/
theorem Descent.unique {a b : α} {path path' : List α} (hnodup : (nodes a).Nodup)
    (h : Descent a path b)
    (h' : Descent a path' b) : path = path' := by
  induction h generalizing path' with
  | here =>
      cases h' with
      | here => rfl
      | down h' hc => exact absurd hc (not_mem_parts_of_mem_nodes h'.mem_nodes)
  | down h hc ih =>
      cases h' with
      | here => exact absurd hc (not_mem_parts_of_mem_nodes h.mem_nodes)
      | down h' hc' =>
          obtain rfl := parent_unique hnodup h.mem_nodes h'.mem_nodes hc hc'
          rw [ih h']

/-! ### Pending events -/

/-- The values that are `opened` behind a pending event lead down from `a` at the top to the value
of the event. -/
def Nested (a : α) : List (Event α) → Prop
  | [] => True
  | e :: pending => Descent a ((opened pending).reverse ++ [e.value]) e.value ∧ Nested a pending

theorem Nested.entered {a b : α} {pending : List (Event α)} (h : Nested a (.enter b :: pending)) :
    Nested a (entered b pending) := by
  have hall : ∀ ps : List α, (∀ p ∈ ps, p ∈ parts b) →
      Nested a (ps.map .enter ++ .leave b :: pending) := by
    intro ps
    induction ps with
    | nil => exact fun _ => h
    | cons p ps ih =>
        intro hps
        obtain ⟨hp, hps⟩ := List.forall_mem_cons.1 hps
        rw [List.map_cons, List.cons_append, Nested, opened_map_enter, opened_leave,
          List.reverse_cons]
        exact ⟨.down h.1 hp, ih hps⟩
  exact hall (parts b) fun _ hp => hp

end Branching

namespace Visit

open Branching

theorem depths_of_descent {root : Node} {path : List Visit} {v : Visit}
    (h : Descent (ofRoot root) path v) :
    path.map depth = List.range path.length ∧ path.length = v.depth + 1 := by
  induction h with
  | here => exact ⟨rfl, rfl⟩
  | down _ hc ih =>
      rw [List.map_append, ih.1, List.length_append, List.map_singleton, depth_of_mem_parts hc,
        ← ih.2, List.length_singleton, List.range_succ]
      exact ⟨rfl, rfl⟩

theorem depth_lt_of_descent {root : Node} {above : List Visit} {v : Visit}
    (h : Descent (ofRoot root) (above ++ [v]) v) : ∀ w ∈ above, w.depth < v.depth := by
  obtain ⟨hdepths, hlength⟩ := depths_of_descent h
  rw [List.length_append, List.length_singleton] at hdepths hlength
  rw [List.map_append, List.range_succ] at hdepths
  have habove : above.map depth = List.range above.length := (List.append_inj' hdepths rfl).1
  intro w hw
  have hmem : w.depth ∈ List.range above.length := habove ▸ List.mem_map_of_mem hw
  rw [List.mem_range] at hmem
  omega

/-- On a way down a node is known by its depth. -/
theorem eq_of_depth_eq {root : Node} {path : List Visit} {v w w' : Visit}
    (h : Descent (ofRoot root) path v) (hw : w ∈ path) (hw' : w' ∈ path)
    (hdepth : w.depth = w'.depth) : w = w' := by
  have hnodup : (path.map depth).Nodup := by
    rw [(depths_of_descent h).1]
    exact List.nodup_range
  exact List.inj_on_of_nodup_map hnodup hw hw' hdepth

/-- On the way down to a node, what is one step above it is what it is a part of. -/
theorem mem_parts_iff_of_descent {root : Node} {above : List Visit} {v w : Visit}
    (h : Descent (ofRoot root) (above ++ [v]) v) (hw : w ∈ above) :
    v ∈ w.parts ↔ w.depth + 1 = v.depth := by
  refine ⟨fun hpart => (depth_of_mem_parts hpart).symm, fun hdepth => ?_⟩
  generalize hpath : above ++ [v] = path at h
  cases h with
  | here =>
      obtain rfl : above = [] := by simpa using hpath
      cases hw
  | down hbefore hpart =>
      obtain ⟨rfl, -⟩ := List.append_inj' hpath rfl
      have hstep := depth_of_mem_parts hpart
      rwa [eq_of_depth_eq hbefore hw hbefore.mem (by omega)]

/-- The one way from the root of a tree to the node of `v`, both of them included.  The depth of a
node is its place on the way, so that it names the node there. -/
structure IsWay (root : Node) (path : List Visit) (v : Visit) : Prop where
  descent : Descent (ofRoot root) path v
  unique : ∀ path', Descent (ofRoot root) path' v → path' = path
  depths : path.map depth = List.range path.length

theorem isWay_of_descent {root : Node} {path : List Visit} {v : Visit}
    (h : Descent (ofRoot root) path v) :
    IsWay root path v :=
  ⟨h, fun _ h' => h'.unique (nodup_nodes_ofRoot root) h, (depths_of_descent h).1⟩

end Visit
end Arborist
