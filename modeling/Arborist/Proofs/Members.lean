import Arborist.Members
import Mathlib.Data.List.Nodup
import Mathlib.Data.List.Perm.Basic

/-!
# Members in any order

If no name is used twice, `Members.ofList` only puts the entries in order: what it gives depends on
which entries there are and not on how they are listed.  So two ways to list the members of an
object are compared as permutations, and the order of names is looked at here and nowhere else.

A map of entries that keeps their names and may drop some of them goes through the look-up by name.
-/

namespace Arborist.Members

universe u v

variable {α : Type u}

/-! ### Looking up by name -/

section Names

variable {κ : Type v} [DecidableEq κ] {ms : List (κ × α)}

theorem mem_of_find? {name : κ} {value : α} (h : find? ms name = some value) :
    (name, value) ∈ ms := by
  obtain ⟨before, after, rfl, -⟩ := List.lookup_eq_some_iff.1 h
  simp

theorem find?_append (ms ns : List (κ × α)) (name : κ) :
    find? (ms ++ ns) name = (find? ms name).or (find? ns name) :=
  List.lookup_append

theorem find?_eq_map (ms : List (κ × α)) (name : κ) :
    find? ms name = (List.find? (fun m => m.1 == name) ms).map Prod.snd := by
  induction ms with
  | nil => rfl
  | cons m ms ih =>
      rw [find?_cons, List.find?_cons]
      by_cases hname : m.1 = name
      · simp [hname]
      · rw [beq_eq_false_iff_ne.2 hname, beq_eq_false_iff_ne.2 (Ne.symm hname)]
        exact ih

end Names

/-! ### Names in order -/

section Order

variable {κ : Type v} [LT κ] {ms : List (κ × α)}

instance [DecidableLT κ] (ms : List (κ × α)) : Decidable (Sorted ms) :=
  inferInstanceAs (Decidable ((ms.map Prod.fst).Pairwise (· < ·)))

section Insert

variable [DecidableEq κ] [DecidableLT κ]

theorem find?_insert (ms : List (κ × α)) (name : κ) (value : α) (other : κ) :
    find? (insert ms name value) other = if other = name then some value else find? ms other := by
  induction ms with
  | nil => simp [insert, find?_cons]
  | cons m ms ih =>
      obtain ⟨n, v⟩ := m
      rw [insert]
      split
      · simp [find?_cons]
      · split
        next heq =>
          subst heq
          by_cases hother : other = name <;> simp [find?_cons, hother]
        next hne =>
          rw [find?_cons, ih, find?_cons]
          by_cases hother : other = name
          · subst hother
            simp [hne]
          · simp [hother]

theorem eq_or_mem_of_mem_insert {name : κ} {value : α} {e : κ × α}
    (h : e ∈ insert ms name value) : e = (name, value) ∨ e ∈ ms := by
  induction ms with
  | nil => exact .inl (List.mem_singleton.1 h)
  | cons m ms ih =>
      obtain ⟨n, v⟩ := m
      rw [insert] at h
      split at h
      · exact List.mem_cons.1 h
      · split at h
        · exact (List.mem_cons.1 h).imp_right (List.mem_cons_of_mem _)
        · rcases List.mem_cons.1 h with rfl | h
          · exact .inr List.mem_cons_self
          · exact (ih h).imp_right (List.mem_cons_of_mem _)

end Insert

variable [LE κ] [Std.LawfulOrderLT κ]

theorem Sorted.nodup_names (h : Sorted ms) : (ms.map Prod.fst).Nodup :=
  h.imp fun hlt => Std.ne_of_lt hlt

theorem Sorted.find?_of_mem [DecidableEq κ] {name : κ} {value : α} (hsorted : Sorted ms)
    (h : (name, value) ∈ ms) : find? ms name = some value := by
  obtain ⟨before, after, rfl⟩ := List.append_of_mem h
  rw [Sorted, List.map_append, List.pairwise_append] at hsorted
  refine List.lookup_eq_some_iff.2 ⟨before, after, rfl, fun e he => ?_⟩
  have hlt := hsorted.2.2 e.1 (List.mem_map_of_mem he) name (by simp)
  simpa using (Std.ne_of_lt hlt).symm

/-- Going through all members for one name comes upon one member. -/
theorem Sorted.flatMap_of_find? {β : Type*} [DecidableEq κ] {name : κ} {value : α}
    (hsorted : Sorted ms) (h : find? ms name = some value) (f : κ × α → List β) :
    (ms.flatMap fun e => if e.1 = name then f e else []) = f (name, value) := by
  obtain ⟨before, after, rfl, hbefore⟩ := List.lookup_eq_some_iff.1 h
  rw [Sorted, List.map_append, List.map_cons, List.pairwise_append, List.pairwise_cons] at hsorted
  have hskip : ∀ ns : List (κ × α), (∀ e ∈ ns, e.1 ≠ name) →
      (ns.flatMap fun e => if e.1 = name then f e else []) = [] := by
    intro ns hne
    exact List.flatMap_eq_nil_iff.2 fun e he => if_neg (hne e he)
  have hafter : ∀ e ∈ after, e.1 ≠ name := fun e he =>
    (Std.ne_of_lt (hsorted.2.1.1 e.1 (List.mem_map_of_mem he))).symm
  rw [List.flatMap_append, List.flatMap_cons, if_pos rfl, hskip after hafter, List.append_nil,
    hskip before fun e he heq => by simpa [heq] using hbefore e he, List.nil_append]

theorem Sorted.insert [DecidableEq κ] [DecidableLT κ] [Std.IsLinearOrder κ] (h : Sorted ms)
    (name : κ) (value : α) : Sorted (insert ms name value) := by
  induction ms with
  | nil => exact List.pairwise_singleton _ _
  | cons m ms ih =>
      obtain ⟨n, v⟩ := m
      obtain ⟨hfirst, hrest⟩ := List.pairwise_cons.1 h
      rw [Members.insert]
      split
      next hlt =>
        refine List.pairwise_cons.2 ⟨fun other hother => ?_, h⟩
        rcases List.mem_cons.1 hother with rfl | hother
        · exact hlt
        · exact Std.lt_trans hlt (hfirst other hother)
      next hnot =>
        split
        next heq =>
          subst heq
          exact h
        next hne =>
          refine List.pairwise_cons.2 ⟨fun other hother => ?_, ih hrest⟩
          obtain ⟨e, he, rfl⟩ := List.mem_map.1 hother
          rcases eq_or_mem_of_mem_insert he with rfl | he
          · by_contra hge
            exact hne (Std.le_antisymm (Std.not_lt.1 hge) (Std.not_lt.1 hnot))
          · exact hfirst _ (List.mem_map_of_mem he)

end Order

variable {ms entries : Members α}

/-! ### Entries that come in any order -/

theorem foldr_prepend (h : (ms.map Prod.fst).Nodup) : ms.foldr prepend [] = ms := by
  induction ms with
  | nil => rfl
  | cons e ms ih =>
      rw [List.map_cons, List.nodup_cons] at h
      rw [List.foldr_cons, ih h.2]
      cases ms with
      | nil => rfl
      | cons next ms =>
          have hne : e.1 ≠ next.1 := by
            intro heq
            exact h.1 (by simp [heq])
          simp [prepend, hne]

theorem pairwise_mergeSort (entries : Members α) :
    (entries.mergeSort fun a b => a.1 ≤ b.1).Pairwise fun a b => a.1 ≤ b.1 := by
  have hsorted := @List.pairwise_mergeSort _ (fun a b : String × α => decide (a.1 ≤ b.1))
    (fun a b c hab hbc => by simp only [decide_eq_true_eq] at *; exact String.le_trans hab hbc)
    (fun a b => by simpa using String.le_total a.1 b.1) entries
  simpa using hsorted

theorem ofList_eq_mergeSort (h : (entries.map Prod.fst).Nodup) :
    ofList entries = entries.mergeSort fun a b => a.1 ≤ b.1 := by
  rw [ofList]
  apply foldr_prepend
  exact ((List.mergeSort_perm entries _).map Prod.fst).nodup_iff.2 h

theorem ofList_perm (h : (entries.map Prod.fst).Nodup) : (ofList entries).Perm entries := by
  rw [ofList_eq_mergeSort h]
  exact List.mergeSort_perm entries _

/-- Entries that are a permutation of others in order become these. -/
theorem ofList_eq_of_perm (h : entries.Perm ms) (hsorted : Sorted ms) : ofList entries = ms := by
  have hnodup : (entries.map Prod.fst).Nodup := (h.map Prod.fst).nodup_iff.2 hsorted.nodup_names
  have hle : ms.Pairwise fun a b => a.1 ≤ b.1 := by
    refine (List.pairwise_map.1 hsorted).imp fun {a b} hlt => ?_
    exact String.not_lt.1 (String.lt_asymm hlt)
  rw [ofList_eq_mergeSort hnodup]
  refine List.Perm.eq_of_pairwise ?_ (pairwise_mergeSort entries) hle
    ((List.mergeSort_perm entries _).trans h)
  intro a b ha hb hab hba
  have ha' : a ∈ ms := h.subset ((List.mergeSort_perm entries _).subset ha)
  exact List.inj_on_of_nodup_map hsorted.nodup_names ha' hb (String.le_antisymm hab hba)

theorem list_find?_eq (ms : Members α) (name : String) :
    List.find? (fun m => m.1 == name) ms = (find? ms name).map (Prod.mk name) := by
  rw [find?_eq_map]
  cases hfind : List.find? (fun m => m.1 == name) ms with
  | none => rfl
  | some m =>
      have hname : m.1 = name := by simpa using List.find?_some hfind
      simp [← hname]

/-- If no two have the same key, looking a key up finds the one that has it. -/
theorem list_find?_eq_some_iff {β : Type u} {key : β → String} {bs : List β}
    (h : (bs.map key).Nodup) {name : String} {b : β} :
    List.find? (fun b => key b == name) bs = some b ↔ b ∈ bs ∧ key b = name := by
  constructor
  · intro hfind
    exact ⟨List.mem_of_find?_eq_some hfind, by simpa using List.find?_some hfind⟩
  · rintro ⟨hmem, rfl⟩
    cases hfind : List.find? (fun b' => key b' == key b) bs with
    | none =>
        rw [List.find?_eq_none] at hfind
        exact absurd (beq_self_eq_true (key b)) (hfind b hmem)
    | some b' =>
        have hkey : key b' = key b := by simpa using List.find?_some hfind
        rw [List.inj_on_of_nodup_map h (List.mem_of_find?_eq_some hfind) hmem hkey]

theorem find?_eq_some_iff_mem (h : (ms.map Prod.fst).Nodup) {name : String} {m : String × α} :
    List.find? (fun m => m.1 == name) ms = some m ↔ m ∈ ms ∧ m.1 = name :=
  list_find?_eq_some_iff h

/-- Looking up several names one after the other finds the members with these names. -/
theorem perm_filterMap_find? {keys : List String} (hkeys : keys.Nodup)
    (h : (ms.map Prod.fst).Nodup) :
    (keys.filterMap fun key => List.find? (fun m => m.1 == key) ms).Perm
      (ms.filter fun m => keys.contains m.1) := by
  rw [List.perm_ext_iff_of_nodup]
  · intro m
    simp only [List.mem_filterMap, find?_eq_some_iff_mem h, List.mem_filter, List.contains_iff_mem]
    constructor
    · rintro ⟨key, hkey, hmem, rfl⟩
      exact ⟨hmem, hkey⟩
    · rintro ⟨hmem, hkey⟩
      exact ⟨m.1, hkey, hmem, rfl⟩
  · refine List.Nodup.filterMap (fun key key' m hm hm' => ?_) hkeys
    have hname := ((find?_eq_some_iff_mem h).1 hm).2
    have hname' := ((find?_eq_some_iff_mem h).1 hm').2
    exact hname.symm.trans hname'
  · exact (List.Nodup.of_map _ h).filter _

/-- Entries in order are known by what is found among them. -/
theorem Sorted.ext {ns : Members α} (hms : Sorted ms) (hns : Sorted ns)
    (h : ∀ name, find? ms name = find? ns name) :
    ms = ns := by
  have hmem : ∀ e, e ∈ ns ↔ e ∈ ms := by
    intro e
    constructor
    · intro he
      exact mem_of_find? ((h e.1).trans (hns.find?_of_mem he))
    · intro he
      exact mem_of_find? ((h e.1).symm.trans (hms.find?_of_mem he))
  have hperm : ns.Perm ms :=
    (List.perm_ext_iff_of_nodup (.of_map _ hns.nodup_names) (.of_map _ hms.nodup_names)).2 hmem
  rw [← ofList_eq_of_perm hperm hms, ofList_eq_of_perm (.refl ns) hns]

/-! ### Names used more than once

Sorting leaves the entries of one name in their order, and then the last of them stays. -/

theorem find?_filter (ms : Members α) (name : String) :
    find? (ms.filter fun e => e.1 == name) name = find? ms name := by
  rw [find?_eq_map, find?_eq_map, List.find?_filter]
  simp only [and_self, Bool.decide_eq_true]

theorem filter_mergeSort (entries : Members α) (name : String) :
    (entries.mergeSort fun a b => a.1 ≤ b.1).filter (fun e => e.1 == name) =
      entries.filter fun e => e.1 == name := by
  have hpairwise : (entries.filter fun e => e.1 == name).Pairwise fun a b =>
      decide (a.1 ≤ b.1) = true := by
    apply List.pairwise_of_forall_mem_list
    intro a ha b hb
    have hname : a.1 = name := by simpa using (List.mem_filter.1 ha).2
    have hname' : b.1 = name := by simpa using (List.mem_filter.1 hb).2
    rw [hname, hname']
    simp
  have hsublist := List.sublist_mergeSort
    (fun a b c hab hbc => by simp only [decide_eq_true_eq] at *; exact String.le_trans hab hbc)
    (fun a b => by simpa using String.le_total a.1 b.1) hpairwise List.filter_sublist
  have hfilter := hsublist.filter fun e => e.1 == name
  rw [List.filter_filter] at hfilter
  simp only [Bool.and_self] at hfilter
  have hlength := ((List.mergeSort_perm entries fun a b => decide (a.1 ≤ b.1)).filter fun e =>
      e.1 == name).length_eq
  exact (hfilter.eq_of_length hlength.symm).symm

theorem mem_of_mem_foldr_prepend {e : String × α} (h : e ∈ ms.foldr prepend []) : e ∈ ms := by
  induction ms with
  | nil => exact h
  | cons m ms ih =>
      rw [List.foldr_cons] at h
      cases hrest : ms.foldr prepend [] with
      | nil =>
          rw [hrest] at h
          rw [List.mem_singleton.1 h]
          exact List.mem_cons_self
      | cons next rest =>
          rw [hrest, prepend] at h
          rw [hrest] at ih
          split at h
          · exact List.mem_cons_of_mem _ (ih h)
          · rcases List.mem_cons.1 h with rfl | h
            · exact List.mem_cons_self
            · exact List.mem_cons_of_mem _ (ih h)

theorem Sorted.prepend {e : String × α} (h : Sorted ms) (hle : ∀ m ∈ ms, e.1 ≤ m.1) :
    Sorted (prepend e ms) := by
  cases ms with
  | nil => exact List.pairwise_singleton _ _
  | cons next ms =>
      rw [Members.prepend]
      split
      next => exact h
      next hne =>
        have hlt : e.1 < next.1 := by
          by_contra hge
          exact hne (String.le_antisymm (hle next List.mem_cons_self) (String.not_lt.1 hge))
        refine List.pairwise_cons.2 ⟨fun other hother => ?_, h⟩
        rcases List.mem_cons.1 hother with rfl | hother
        · exact hlt
        · exact String.lt_trans hlt ((List.pairwise_cons.1 h).1 other hother)

theorem find?_prepend {e : String × α} (h : Sorted (prepend e ms)) (name : String) :
    find? (prepend e ms) name = (find? ms name).or (find? [e] name) := by
  cases ms with
  | nil => rfl
  | cons next ms =>
      rw [prepend] at h ⊢
      split at h
      next heq =>
        rw [if_pos heq]
        by_cases hname : name = e.1
        · rw [find?_cons, if_pos (beq_iff_eq.2 (hname.trans heq)), Option.some_or]
        · simp [find?_cons, find?_nil, hname]
      next hne =>
        rw [if_neg hne]
        by_cases hname : name = e.1
        · have hnone : find? (next :: ms) name = none := by
            rw [find?, List.lookup_eq_none_iff]
            intro m hm
            have hlt := (List.pairwise_cons.1 h).1 m.1 (List.mem_map_of_mem hm)
            simpa [hname] using String.ne_of_lt hlt
          rw [hnone, Option.none_or]
          simp [find?_cons e, hname]
        · rw [find?_cons, if_neg (by simpa using hname)]
          simp [find?_cons e, find?_nil, hname]

theorem foldr_prepend_of_pairwise (h : ms.Pairwise fun a b => a.1 ≤ b.1) :
    Sorted (ms.foldr prepend []) ∧ ∀ name, find? (ms.foldr prepend []) name =
      find? ms.reverse name := by
  induction ms with
  | nil => exact ⟨.nil, fun _ => rfl⟩
  | cons e ms ih =>
      obtain ⟨hle, hrest⟩ := List.pairwise_cons.1 h
      obtain ⟨hsorted, hfind⟩ := ih hrest
      have hsorted' : Sorted (prepend e (ms.foldr prepend [])) :=
        hsorted.prepend fun m hm => hle m (mem_of_mem_foldr_prepend hm)
      refine ⟨hsorted', fun name => ?_⟩
      rw [List.foldr_cons, find?_prepend hsorted', hfind, List.reverse_cons, find?_append]

theorem sorted_ofList (entries : Members α) : Sorted (ofList entries) :=
  (foldr_prepend_of_pairwise (pairwise_mergeSort entries)).1

theorem find?_ofList (entries : Members α) (name : String) :
    find? (ofList entries) name = find? entries.reverse name := by
  rw [ofList, (foldr_prepend_of_pairwise (pairwise_mergeSort entries)).2, ← find?_filter,
    List.filter_reverse, filter_mergeSort, ← List.filter_reverse, find?_filter]

/-- `ofList` puts the entries in order and lets the last one of each name stay. -/
theorem ofList_eq_iff : ofList entries = ms ↔ Sorted ms ∧
    ∀ name, find? ms name = find? entries.reverse name := by
  constructor
  · intro h
    subst h
    exact ⟨sorted_ofList entries, find?_ofList entries⟩
  · intro h
    exact (sorted_ofList entries).ext h.1 fun name =>
      (find?_ofList entries name).trans (h.2 name).symm

/-! ### Maps that keep names -/

section KeepNames

variable {f : String × α → Option (String × α)}

theorem map_fst_filterMap_sublist (hf : ∀ m m', f m = some m' → m'.1 = m.1) (ms : Members α) :
    ((ms.filterMap f).map Prod.fst).Sublist (ms.map Prod.fst) := by
  induction ms with
  | nil => exact .slnil
  | cons m ms ih =>
      rw [List.filterMap_cons, List.map_cons]
      cases hm : f m with
      | none => exact ih.cons _
      | some m' =>
          rw [List.map_cons, hf m m' hm]
          exact ih.cons_cons _

theorem Sorted.filterMap (hf : ∀ m m', f m = some m' → m'.1 = m.1) (h : Sorted ms) :
    Sorted (ms.filterMap f) :=
  List.Pairwise.sublist (map_fst_filterMap_sublist hf ms) h

theorem find?_filterMap_of_nodup (hf : ∀ m m', f m = some m' → m'.1 = m.1)
    (h : (ms.map Prod.fst).Nodup) (name : String) :
    List.find? (fun m => m.1 == name) (ms.filterMap f) =
      (List.find? (fun m => m.1 == name) ms).bind f := by
  induction ms with
  | nil => rfl
  | cons m ms ih =>
      rw [List.map_cons, List.nodup_cons] at h
      specialize ih h.2
      by_cases hname : m.1 = name
      · have hrest : List.find? (fun m => m.1 == name) ms = none := by
          rw [List.find?_eq_none]
          intro m' hm' heq
          exact h.1 (hname ▸ (beq_iff_eq.1 heq) ▸ List.mem_map_of_mem hm')
        rw [hrest] at ih
        cases hm : f m with
        | none => simp [hname, hm, ih]
        | some m' => simp [hname, hm, hf m m' hm]
      · cases hm : f m with
        | none => simp [hname, hm, ih]
        | some m' => simp [hname, hm, hf m m' hm, ih]

end KeepNames

end Arborist.Members
