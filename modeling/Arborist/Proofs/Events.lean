import Arborist.Proofs.Walk
import Mathlib.Data.List.Nodup
import Mathlib.Data.List.Pairwise

/-!
# The events of a traversal

A listener may decide what to skip by everything it has heard so far.  Still, once a traversal is
over, what happened can be said without the listener: `trace control a` lists the events of a
traversal in which it is fixed from the start of which values the parts are skipped.  If no value
occurs twice, then every traversal has the events of such a trace, the skipped values being those at
which the listener asked for it (`exists_hears_visit`).

A trace is the trace that skips nothing without the events of the values below the skipped ones
(`trace_eq_filter`).
-/

namespace Arborist

universe u v

def Event.value {α : Type u} : Event α → α
  | .enter a => a
  | .leave a => a

namespace Branching

variable {α : Type u} {σ : Type v}

/-- The events so far, and the values at which a listener wanted the parts skipped. -/
structure Heard (α : Type u) where
  events : List (Event α)
  skipped : List α

/-- The listener `l`, which also keeps what it has heard. -/
def hearing (l : Listener α σ) : Listener α (σ × Heard α) where
  enter a s :=
    let (t, control) := l.enter a s.1
    ((t, ⟨s.2.events ++ [.enter a], s.2.skipped ++ (match control with
      | .descend => []
      | .skip => [a])⟩), control)
  leave a s := (l.leave a s.1, ⟨s.2.events ++ [.leave a], s.2.skipped⟩)

theorem hearing_descend {l : Listener α σ} {a : α} {s t : σ} (h : l.enter a s = (t, .descend))
    (heard : Heard α) :
    (hearing l).enter a (s, heard) =
      ((t, ⟨heard.events ++ [.enter a], heard.skipped⟩), .descend) := by
  simp [hearing, h]

theorem hearing_skip {l : Listener α σ} {a : α} {s t : σ} (h : l.enter a s = (t, .skip))
    (heard : Heard α) :
    (hearing l).enter a (s, heard) =
      ((t, ⟨heard.events ++ [.enter a], heard.skipped ++ [a]⟩), .skip) := by
  simp [hearing, h]

variable [Branching α]

/-- The events of a traversal in which `control` says of every value what is done with its parts. -/
def trace (control : α → Control) (a : α) : List (Event α) :=
  fold (fun a below =>
    .enter a :: (match control a with
      | .descend => below.flatten
      | .skip => []) ++ [.leave a]) a

theorem trace_eq (control : α → Control) (a : α) :
    trace control a =
      .enter a :: (match control a with
        | .descend => (parts a).flatMap (trace control)
        | .skip => []) ++ [.leave a] := by
  rw [trace, fold_eq, List.flatMap_def]
  rfl

theorem trace_of_descend {control : α → Control} {a : α} (h : control a = .descend) :
    trace control a = .enter a :: (parts a).flatMap (trace control) ++ [.leave a] := by
  rw [trace_eq, h]

theorem trace_of_skip {control : α → Control} {a : α} (h : control a = .skip) :
    trace control a = [.enter a, .leave a] := by
  rw [trace_eq, h]
  rfl

theorem value_mem_nodes {control : α → Control} {a : α} {e : Event α} (h : e ∈ trace control a) :
    e.value ∈ nodes a := by
  induction a using parts_induction with
  | step a ih =>
      rw [trace_eq, List.cons_append, List.mem_cons, List.mem_append, List.mem_singleton] at h
      rcases h with rfl | h | rfl
      · exact self_mem_nodes a
      · cases hcontrol : control a with
        | skip => simp [hcontrol] at h
        | descend =>
            simp only [hcontrol, List.mem_flatMap] at h
            obtain ⟨p, hp, he⟩ := h
            exact mem_nodes_trans (mem_nodes_of_mem_parts hp) (ih p hp he)
      · exact self_mem_nodes a

/-- If nothing is skipped, everything is entered and left. -/
theorem mem_trace_descend {a b : α} (h : b ∈ nodes a) :
    .enter b ∈ trace (fun _ => .descend) a ∧ .leave b ∈ trace (fun _ => .descend) a := by
  induction a using parts_induction with
  | step a ih =>
      rw [@trace_of_descend α _ (fun _ => .descend) a rfl]
      rw [nodes_eq, List.mem_cons, List.mem_flatMap] at h
      rcases h with rfl | ⟨p, hp, hb⟩
      · simp
      · have hbelow : ∀ e ∈ trace (fun _ => .descend) p,
            e ∈ (parts a).flatMap (trace fun _ => .descend) :=
          fun e he => List.mem_flatMap.2 ⟨p, hp, he⟩
        obtain ⟨henter, hleave⟩ := ih p hp hb
        simp [hbelow _ henter, hbelow _ hleave]

/-! ### Values that occur once -/

theorem nodup_flatMap_parts {a : α} (h : (nodes a).Nodup) : ((parts a).flatMap nodes).Nodup := by
  rw [nodes_eq, List.nodup_cons] at h
  exact h.2

theorem nodup_of_mem_parts {a p : α} (h : (nodes a).Nodup) (hp : p ∈ parts a) : (nodes p).Nodup :=
  (List.nodup_flatMap.1 (nodup_flatMap_parts h)).1 p hp

/-- A value lies below one part only. -/
theorem part_unique {a p q x : α} (h : (nodes a).Nodup) (hp : p ∈ parts a) (hq : q ∈ parts a)
    (hxp : x ∈ nodes p)
    (hxq : x ∈ nodes q) : p = q := by
  by_contra hne
  have hdisjoint := (List.nodup_flatMap.1 (nodup_flatMap_parts h)).2
  have hsymm : Std.Symm (Function.onFun List.Disjoint (nodes : α → List α)) :=
    ⟨fun _ _ hd => List.disjoint_symm hd⟩
  exact hdisjoint.forall hp hq hne hxp hxq

/-! ### What a listener hears -/

/-- These are the events of the values `as` one after the other if the parts of the `skipped` ones
are left out.  That the events are a filtered `trace` is said only of values whose nodes are all
different. -/
structure Hears (as : List α) (events : List (Event α)) (skipped : List α) : Prop where
  mem_nodes : ∀ w ∈ skipped, w ∈ as.flatMap nodes
  events_eq : (as.flatMap nodes).Nodup → ∀ control : α → Control,
    (∀ w ∈ as.flatMap nodes, control w = .skip ↔ w ∈ skipped) → events = as.flatMap (trace control)

namespace Hears

theorem nil : Hears ([] : List α) [] [] where
  mem_nodes := by simp
  events_eq := by simp

theorem append {as bs : List α} {events events' : List (Event α)} {skipped skipped' : List α}
    (h : Hears as events skipped) (h' : Hears bs events' skipped') :
    Hears (as ++ bs) (events ++ events') (skipped ++ skipped') where
  mem_nodes w hw := by
    rw [List.flatMap_append, List.mem_append]
    exact (List.mem_append.1 hw).imp (h.mem_nodes w) (h'.mem_nodes w)
  events_eq hnodup control hcontrol := by
    rw [List.flatMap_append] at hnodup hcontrol
    obtain ⟨hnodup₁, hnodup₂, hdisjoint⟩ := List.nodup_append'.1 hnodup
    -- on either side, the values skipped on the other side do not count
    rw [List.flatMap_append, h.events_eq hnodup₁ control, h'.events_eq hnodup₂ control]
    · intro w hw
      have hother : w ∉ skipped := fun hmem => hdisjoint (h.mem_nodes w hmem) hw
      simpa [hother] using hcontrol w (List.mem_append_right _ hw)
    · intro w hw
      have hother : w ∉ skipped' := fun hmem => hdisjoint hw (h'.mem_nodes w hmem)
      simpa [hother] using hcontrol w (List.mem_append_left _ hw)

theorem skip (a : α) : Hears [a] [.enter a, .leave a] [a] where
  mem_nodes w hw := by
    rw [List.mem_singleton.1 hw]
    simpa using self_mem_nodes a
  events_eq _ control hcontrol := by
    have hskip : control a = .skip := (hcontrol a (by simpa using self_mem_nodes a)).2
        (List.mem_singleton_self a)
    simp [trace_of_skip hskip]

theorem descend {a : α} {events : List (Event α)} {skipped : List α}
    (h : Hears (parts a) events skipped) :
    Hears [a] (.enter a :: events ++ [.leave a]) skipped where
  mem_nodes w hw := by
    simp only [List.flatMap_cons, List.flatMap_nil, List.append_nil, nodes_eq a]
    exact List.mem_cons_of_mem a (h.mem_nodes w hw)
  events_eq hnodup control hcontrol := by
    simp only [List.flatMap_cons, List.flatMap_nil, List.append_nil] at hnodup hcontrol ⊢
    rw [nodes_eq, List.nodup_cons] at hnodup
    have hdescend : control a = .descend := by
      cases hc : control a with
      | descend => rfl
      | skip => exact absurd (h.mem_nodes a ((hcontrol a (self_mem_nodes a)).1 hc)) hnodup.1
    rw [trace_of_descend hdescend, h.events_eq hnodup.2 control]
    intro w hw
    refine hcontrol w ?_
    rw [nodes_eq]
    exact List.mem_cons_of_mem a hw

end Hears

/-- A traversal hears the events of the values it is given, without those below the values at which
it skips. -/
theorem exists_hears_visit (l : Listener α σ) (a : α) :
    ∀ (s : σ) (heard : Heard α), ∃ events skipped, Hears [a] events skipped ∧
      visit (hearing l) a (s, heard) =
        (visit l a s, ⟨heard.events ++ events, heard.skipped ++ skipped⟩) := by
  induction a using parts_induction with
  | step a ih =>
      have hall : ∀ ps : List α, (∀ p ∈ ps, p ∈ parts a) → ∀ (s : σ) (heard : Heard α),
          ∃ events skipped, Hears ps events skipped ∧
            visitAll (hearing l) ps (s, heard) =
              (visitAll l ps s, ⟨heard.events ++ events, heard.skipped ++ skipped⟩) := by
        intro ps
        induction ps with
        | nil =>
            intro _ s heard
            exact ⟨[], [], .nil, by simp⟩
        | cons p ps ihps =>
            intro hps s heard
            obtain ⟨events, skipped, hp, hvisit⟩ := ih p (hps p List.mem_cons_self) s heard
            obtain ⟨events', skipped', hps', hvisit'⟩ :=
              ihps (fun q hq => hps q (List.mem_cons_of_mem p hq)) (visit l p s)
                ⟨heard.events ++ events, heard.skipped ++ skipped⟩
            refine ⟨events ++ events', skipped ++ skipped', hp.append hps', ?_⟩
            rw [visitAll_cons, visitAll_cons, hvisit, hvisit']
            simp
      intro s heard
      rw [visit_eq, visit_eq]
      rcases henter : l.enter a s with ⟨t, _ | _⟩
      · obtain ⟨events, skipped, hparts, hvisit⟩ :=
          hall (parts a) (fun _ hp => hp) t ⟨heard.events ++ [.enter a], heard.skipped⟩
        refine ⟨_, skipped, hparts.descend, ?_⟩
        rw [hearing_descend henter]
        show (hearing l).leave a (visitAll (hearing l) (parts a) (t, _)) = _
        rw [hvisit]
        simp [hearing]
      · refine ⟨_, _, .skip a, ?_⟩
        rw [hearing_skip henter]
        simp [hearing]

/-! ### What is left out -/

def below (a : α) : List α :=
  (parts a).flatMap nodes

theorem weight_le_of_mem_nodes {a b : α} (h : b ∈ nodes a) : weight b ≤ weight a := by
  refine forall_mem_nodes (P := fun b => weight b ≤ weight a) (fun b hb p hp => ?_)
    (Nat.le_refl _) b h
  exact Nat.le_trans (Nat.le_of_lt (weight_lt_of_mem_parts hp)) hb

theorem not_mem_below {a w : α} (h : w ∈ nodes a) : a ∉ below w := by
  intro hmem
  obtain ⟨p, hp, ha⟩ := List.mem_flatMap.1 hmem
  have hlt := weight_lt_of_mem_parts hp
  have hle := weight_le_of_mem_nodes ha
  have hle' := weight_le_of_mem_nodes h
  omega

theorem mem_nodes_of_mem_below {w x : α} (h : x ∈ below w) : x ∈ nodes w := by
  rw [nodes_eq]
  exact List.mem_cons_of_mem w h

/-- What is hidden in a part is hidden by the value itself or by something in the same part. -/
theorem hidden_iff {control : α → Control} {a p x : α} (h : (nodes a).Nodup) (hp : p ∈ parts a)
    (hx : x ∈ nodes p) :
    (∃ w ∈ nodes a, control w = .skip ∧ x ∈ below w) ↔
      control a = .skip ∨ ∃ w ∈ nodes p, control w = .skip ∧ x ∈ below w := by
  constructor
  · rintro ⟨w, hw, hskip, hbelow⟩
    rw [nodes_eq, List.mem_cons, List.mem_flatMap] at hw
    rcases hw with rfl | ⟨p', hp', hw⟩
    · exact .inl hskip
    · have hx' : x ∈ nodes p' := mem_nodes_trans hw (mem_nodes_of_mem_below hbelow)
      rw [← part_unique h hp hp' hx hx'] at hw
      exact .inr ⟨w, hw, hskip, hbelow⟩
  · rintro (hskip | ⟨w, hw, hskip, hbelow⟩)
    · exact ⟨a, self_mem_nodes a, hskip, List.mem_flatMap.2 ⟨p, hp, hx⟩⟩
    · exact ⟨w, mem_nodes_trans (mem_nodes_of_mem_parts hp) hw, hskip, hbelow⟩

/-- A trace is the trace that skips nothing, without the events of the values below those that are
skipped. -/
theorem trace_eq_filter {control : α → Control} {a : α} (h : (nodes a).Nodup) (keep : α → Bool)
    (hkeep : ∀ x ∈ nodes a, keep x = false ↔ ∃ w ∈ nodes a, control w = .skip ∧ x ∈ below w) :
    trace control a = (trace (fun _ => .descend) a).filter fun e => keep e.value := by
  induction a using parts_induction with
  | step a ih =>
      have hself : keep a = true := by
        rw [← Bool.not_eq_false, hkeep a (self_mem_nodes a)]
        rintro ⟨w, hw, -, hbelow⟩
        exact not_mem_below hw hbelow
      have hbelow : ∀ p ∈ parts a, ∀ x ∈ nodes p,
          keep x = false ↔ control a = .skip ∨ ∃ w ∈ nodes p, control w = .skip ∧ x ∈ below w :=
              fun p hp x hx =>
        (hkeep x (mem_nodes_trans (mem_nodes_of_mem_parts hp) hx)).trans (hidden_iff h hp hx)
      rw [@trace_of_descend α _ (fun _ => .descend) a rfl, List.cons_append, List.filter_cons,
        List.filter_append, List.filter_flatMap]
      have hleave : ([.leave a] : List (Event α)).filter (fun e => keep e.value) = [.leave a] := by
        simp [Event.value, hself]
      show _ = (if keep a then _ else _)
      rw [if_pos hself, hleave]
      cases hcontrol : control a with
      | skip =>
          have hnone : ((parts a).flatMap fun p =>
              (trace (fun _ => .descend) p).filter fun e => keep e.value) = [] := by
            rw [List.flatMap_eq_nil_iff]
            intro p hp
            rw [List.filter_eq_nil_iff]
            intro e he
            rw [Bool.not_eq_true, hbelow p hp e.value (value_mem_nodes he)]
            exact .inl hcontrol
          rw [trace_of_skip hcontrol, hnone]
          rfl
      | descend =>
          have hparts : (parts a).flatMap (trace control) =
              (parts a).flatMap fun p => (trace (fun _ => .descend) p).filter fun e =>
                  keep e.value := by
            refine List.flatMap_congr fun p hp => ih p hp (nodup_of_mem_parts h hp) fun x hx => ?_
            rw [hbelow p hp x hx, hcontrol]
            simp
          rw [trace_of_descend hcontrol, hparts]
          rfl

end Branching

namespace Visit

theorem visit_recording (control : Visit → Control) (v : Visit) (events : List (Event Visit)) :
    Branching.visit (recording control) v events =
      (Branching.trace control v).reverse ++ events := by
  induction v using Branching.parts_induction generalizing events with
  | step v ih =>
      have hall : ∀ ws : List Visit, (∀ w ∈ ws, w ∈ v.parts) → ∀ events,
          Branching.visitAll (recording control) ws events =
            (ws.flatMap (Branching.trace control)).reverse ++ events := by
        intro ws
        induction ws with
        | nil => intro _ events; rfl
        | cons w ws ihws =>
            intro hws events
            rw [Branching.visitAll_cons, ih w (hws w List.mem_cons_self),
              ihws fun x hx => hws x (List.mem_cons_of_mem w hx), List.flatMap_cons,
              List.reverse_append, List.append_assoc]
      have henter : (recording control).enter v events = (.enter v :: events, control v) := rfl
      rw [Branching.visit_eq, henter]
      cases hcontrol : control v with
      | descend =>
          rw [Branching.trace_of_descend hcontrol]
          show .leave v :: Branching.visitAll (recording control) v.parts _ = _
          rw [hall v.parts fun _ hw => hw]
          simp [Branching.parts]
      | skip =>
          rw [Branching.trace_of_skip hcontrol]
          rfl

theorem events_ofRoot (control : Visit → Control) (root : Node) :
    (ofRoot root).events control = Branching.trace control (ofRoot root) := by
  rw [events, walk, Branching.traverse_eq_visit, visit_recording, List.append_nil,
    List.reverse_reverse]
  rfl

theorem nodup_nodes_ofRoot (root : Node) : (Branching.nodes (ofRoot root)).Nodup := by
  have hnodup : ((ofRoot root).preorder.map ordinal).Nodup := by
    rw [map_ordinal_preorder]
    exact List.nodup_range
  rw [← preorder_ofRoot]
  exact List.Nodup.of_map _ hnodup

end Visit
end Arborist
