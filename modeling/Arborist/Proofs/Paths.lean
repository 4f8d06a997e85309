import Arborist.Files.Volume
import Arborist.Proofs.Utf8
import Mathlib.Data.List.Basic
import Mathlib.Data.List.Induction
import Mathlib.Data.List.Infix

/-!
# Names and paths

A path that is put together from names can be taken apart again (`Path.segments_ofSegments`), so
different names lead along different paths.  Above the path of a place are the paths of the places
on the way to it (`Path.ancestors_absolute`), and what is left of a path below such a place are the
names from there on (`Path.below?_absolute`).
-/

namespace Arborist

namespace Text

universe u

variable {α : Type u} [DecidableEq α] {mark : α} {cs : List α}

theorem cut_of_not_mem (h : mark ∉ cs) : cut mark cs = [cs] := by
  induction cs with
  | nil => rfl
  | cons c cs ih =>
      rw [List.mem_cons, not_or] at h
      rw [cut, if_neg (Ne.symm h.1), ih h.2]

theorem cut_ne_nil (mark : α) (cs : List α) : cut mark cs ≠ [] := by
  cases cs with
  | nil => exact List.cons_ne_nil _ _
  | cons c cs =>
      rw [cut]
      split
      · exact List.cons_ne_nil _ _
      · split <;> exact List.cons_ne_nil _ _

/-- What is before a mark and what is after it are divided on their own. -/
theorem cut_append (cs rest : List α) :
    cut mark (cs ++ mark :: rest) = cut mark cs ++ cut mark rest := by
  induction cs with
  | nil => simp [cut]
  | cons c cs ih =>
      obtain ⟨piece, pieces, hcut⟩ := List.exists_cons_of_ne_nil (cut_ne_nil mark cs)
      rw [List.cons_append, cut, ih, cut, hcut]
      split <;> rfl

theorem cut_append_cons (h : mark ∉ cs) (rest : List α) :
    cut mark (cs ++ mark :: rest) = cs :: cut mark rest := by
  rw [cut_append, cut_of_not_mem h, List.singleton_append]

/-- The parts of a text make it up again. -/
theorem intercalate_cut (mark : α) (cs : List α) : [mark].intercalate (cut mark cs) = cs := by
  induction cs with
  | nil => rfl
  | cons c cs ih =>
      obtain ⟨piece, rest, hcut⟩ := List.exists_cons_of_ne_nil (cut_ne_nil mark cs)
      rw [cut, hcut]
      rw [hcut] at ih
      split
      next heq =>
        subst c
        rw [List.intercalate_cons_cons, ih]
        rfl
      next =>
        rw [← ih]
        cases rest with
        | nil => rfl
        | cons next rest => rw [List.intercalate_cons_cons, List.intercalate_cons_cons]; rfl

theorem not_mem_of_mem_cut {piece : List α} (h : piece ∈ cut mark cs) : mark ∉ piece := by
  induction cs generalizing piece with
  | nil =>
      rw [List.mem_singleton.1 h]
      exact List.not_mem_nil
  | cons c cs ih =>
      obtain ⟨first, rest, hcut⟩ := List.exists_cons_of_ne_nil (cut_ne_nil mark cs)
      rw [hcut] at ih
      rw [cut, hcut] at h
      split at h
      next =>
        rcases List.mem_cons.1 h with rfl | h
        · exact List.not_mem_nil
        · exact ih h
      next hne =>
        rcases List.mem_cons.1 h with rfl | h
        · rw [List.mem_cons, not_or]
          exact ⟨Ne.symm hne, ih List.mem_cons_self⟩
        · exact ih (List.mem_cons_of_mem first h)

/-- Parts without the mark come back from the text that they are put together to. -/
theorem cut_intercalate {pieces : List (List α)} (hne : pieces ≠ [])
    (h : ∀ piece ∈ pieces, mark ∉ piece) : cut mark ([mark].intercalate pieces) = pieces := by
  induction pieces with
  | nil => exact absurd rfl hne
  | cons piece pieces ih =>
      rw [List.forall_mem_cons] at h
      cases pieces with
      | nil =>
          rw [List.intercalate_singleton]
          exact cut_of_not_mem h.1
      | cons piece' pieces =>
          rw [List.intercalate_cons_cons, List.append_assoc, List.singleton_append,
            cut_append_cons h.1, ih (List.cons_ne_nil _ _) h.2]

end Text

namespace Path

/-- What the name of an entry has to be like.  It need not be text. -/
structure IsName (name : Name) : Prop where
  not_idle : isIdle name = false
  not_up : name ≠ up
  no_slash : slash ∉ name
  no_nul : 0 ∉ name
  size_le : name.length ≤ Volume.nameLimit

instance : DecidablePred IsName := fun name =>
  decidable_of_iff
    (isIdle name = false ∧ name ≠ up ∧ slash ∉ name ∧ 0 ∉ name ∧ name.length ≤ Volume.nameLimit)
    ⟨fun ⟨hidle, hup, hslash, hnul, hsize⟩ => ⟨hidle, hup, hslash, hnul, hsize⟩,
      fun h => ⟨h.not_idle, h.not_up, h.no_slash, h.no_nul, h.size_le⟩⟩

theorem IsName.ne_nil {name : Name} (h : IsName name) : name ≠ [] := by
  rintro rfl
  exact Bool.noConfusion h.not_idle

theorem ofSegments_cons_cons (s s' : Name) (rest : List Name) :
    ofSegments (s :: s' :: rest) = s ++ slash :: ofSegments (s' :: rest) := by
  rw [ofSegments, List.intercalate_cons_cons, List.append_assoc, List.singleton_append, ofSegments]

theorem segments_ne_nil (path : Path) : segments path ≠ [] := Text.cut_ne_nil _ _

/-- Segments come back from the path that they are put together to. -/
theorem segments_ofSegments {names : List Name} (hne : names ≠ [])
    (h : ∀ name ∈ names, slash ∉ name) : segments (ofSegments names) = names :=
  Text.cut_intercalate hne h

theorem exists_ofSegments_cons (s : Name) (rest : List Name) :
    ∃ path, ofSegments (s :: rest) = s ++ path := by
  cases rest with
  | nil => exact ⟨[], by simp [ofSegments]⟩
  | cons s' rest => exact ⟨_, ofSegments_cons_cons s s' rest⟩

theorem isAbsolute_ofSegments {name : Name} (h : IsName name) (names : List Name) :
    isAbsolute (ofSegments (name :: names)) = false := by
  obtain ⟨path, hpath⟩ := exists_ofSegments_cons name names
  obtain ⟨b, bs, hbs⟩ := List.exists_cons_of_ne_nil h.ne_nil
  have hslash : b ≠ slash := by
    rintro rfl
    exact h.no_slash (by simp [hbs])
  rw [isAbsolute, hpath, hbs]
  simpa using hslash

theorem isAbsolute_name {name : Name} (h : IsName name) : isAbsolute name = false := by
  have hname := isAbsolute_ofSegments h []
  rwa [ofSegments, List.intercalate_singleton] at hname

theorem mem_ofSegments {b : UInt8} {names : List Name} (h : b ∈ ofSegments names) :
    b = slash ∨ ∃ name ∈ names, b ∈ name := by
  induction names with
  | nil => exact absurd h (by simp [ofSegments])
  | cons name names ih =>
      cases names with
      | nil =>
          rw [ofSegments, List.intercalate_singleton] at h
          exact .inr ⟨name, List.mem_cons_self, h⟩
      | cons name' names =>
          rw [ofSegments_cons_cons, List.mem_append, List.mem_cons] at h
          rcases h with h | h | h
          · exact .inr ⟨name, List.mem_cons_self, h⟩
          · exact .inl h
          · refine (ih h).imp_right fun ⟨other, hother, hb⟩ => ?_
            exact ⟨other, List.mem_cons_of_mem name hother, hb⟩

theorem isAbsolute_absolute (names : List Name) : isAbsolute (absolute names) = true := by
  simp [isAbsolute, absolute]

theorem segments_absolute (names : List Name) :
    segments (absolute names) = [] :: segments (ofSegments names) := by
  rw [segments, absolute, Text.cut, if_pos rfl, segments]

/-- What is above a place has a shorter path. -/
theorem absolute_prefix_append (names rest : List Name) :
    absolute names <+: absolute (names ++ rest) := by
  have hcons : ∀ name (names : List Name), ofSegments (name :: names) <+: ofSegments
      (name :: (names ++ rest)) := by
    intro name names
    induction names generalizing name with
    | nil =>
        obtain ⟨path, hpath⟩ := exists_ofSegments_cons name rest
        rw [List.nil_append, hpath, ofSegments, List.intercalate_singleton]
        exact List.prefix_append _ _
    | cons name' names ih =>
        rw [List.cons_append, ofSegments_cons_cons, ofSegments_cons_cons,
          List.prefix_append_right_inj, List.cons_prefix_cons]
        exact ⟨rfl, ih name'⟩
  rw [absolute, absolute, List.cons_prefix_cons, and_iff_right rfl]
  cases names with
  | nil => exact List.nil_prefix
  | cons name names => exact hcons name names

/-! ### As text -/

theorem lossy_ofSegments (names : List Name) :
    Text.lossy (ofSegments names) = "/".intercalate (names.map Text.lossy) := by
  induction names with
  | nil => rfl
  | cons name names ih =>
      cases names with
      | nil => simp [ofSegments]
      | cons name' names =>
          rw [ofSegments_cons_cons, slash, Text.lossy_slash, ih]
          simp [String.intercalate_cons_cons]

theorem display_absolute (names : List Name) :
    display (absolute names) = "/" ++ "/".intercalate (names.map Text.lossy) := by
  rw [display, absolute, ← List.nil_append (slash :: _), slash, Text.lossy_slash, lossy_ofSegments]
  rfl

theorem bytes_intercalate (texts : List String) :
    Text.bytes ("/".intercalate texts) = ofSegments (texts.map Text.bytes) := by
  induction texts with
  | nil => rfl
  | cons text texts ih =>
      cases texts with
      | nil => simp [ofSegments]
      | cons text' texts =>
          rw [String.intercalate_cons_cons, Text.bytes_append, Text.bytes_append, ih, List.map_cons,
            List.map_cons, List.map_cons, ofSegments_cons_cons, List.append_assoc]
          rfl

/-- The path of a place is text if and only if all names on the way to it are. -/
theorem isText_absolute_iff {names : List Name} (h : ∀ name ∈ names, slash ∉ name) :
    Text.IsText (absolute names) ↔ ∀ name ∈ names, Text.IsText name := by
  have hbytes : Text.bytes (Text.lossy (absolute names)) =
      absolute (names.map fun name => Text.bytes (Text.lossy name)) := by
    rw [← display, display_absolute, Text.bytes_append, bytes_intercalate, List.map_map]
    rfl
  have hmap : (∀ name ∈ names, Text.IsText name) ↔
      names.map (fun name => Text.bytes (Text.lossy name)) = names := by
    have hid := List.map_id' names
    exact ⟨fun htext => (List.map_congr_left htext).trans hid,
      fun heq => List.map_inj_left.1 (heq.trans hid.symm)⟩
  rw [Text.IsText, hbytes, hmap]
  refine ⟨fun heq => ?_, fun heq => by rw [heq]⟩
  have hpath := (List.cons.inj heq).2
  cases names with
  | nil => rfl
  | cons name names =>
      have hslash : ∀ n ∈ (name :: names).map (fun name => Text.bytes (Text.lossy name)),
          slash ∉ n := by
        intro n hn
        obtain ⟨other, hother, rfl⟩ := List.mem_map.1 hn
        exact Text.slash_not_mem_bytes (Text.slash_not_mem_lossy (h other hother))
      rw [← segments_ofSegments (by simp) hslash, hpath, segments_ofSegments (by simp) h]

/-! ### What is above a path -/

theorem ofSegments_append_singleton {segments : List Name} (hne : segments ≠ []) (s : Name) :
    ofSegments (segments ++ [s]) = ofSegments segments ++ slash :: s := by
  induction segments with
  | nil => exact absurd rfl hne
  | cons first rest ih =>
      cases rest with
      | nil => simp [ofSegments]
      | cons next rest =>
          rw [List.cons_append, List.cons_append, ofSegments_cons_cons, ← List.cons_append,
            ih (List.cons_ne_nil _ _), ofSegments_cons_cons, List.append_assoc, List.cons_append]

theorem absolute_eq_ofSegments {names : List Name} (hne : names ≠ []) :
    absolute names = ofSegments ([] :: names) := by
  cases names with
  | nil => exact absurd rfl hne
  | cons name names => rw [ofSegments_cons_cons, List.nil_append, absolute]

/-- A name leads from a place to the one below it. -/
theorem join_absolute {names : List Name} {name : Name} (h : ∀ n ∈ names ++ [name], IsName n) :
    join (absolute names) name = absolute (names ++ [name]) := by
  rw [List.forall_mem_append, List.forall_mem_singleton] at h
  have hne : absolute names ≠ [] := List.cons_ne_nil _ _
  rw [join, isAbsolute_name h.2, Bool.false_or, if_neg (by simpa using hne)]
  cases names using List.reverseRecOn with
  | nil =>
      have hback : (absolute []).getLast? = some slash := rfl
      rw [if_pos hback]
      simp [absolute, ofSegments]
  | append_singleton names last =>
      rw [List.forall_mem_append, List.forall_mem_singleton] at h
      have hlast : (absolute (names ++ [last])).getLast? = last.getLast? := by
        rw [absolute_eq_ofSegments (List.concat_ne_nil _ _), ← List.cons_append,
          ofSegments_append_singleton (List.cons_ne_nil _ _), List.append_cons,
          List.getLast?_append_of_ne_nil _ h.1.2.ne_nil]
      have hback : (absolute (names ++ [last])).getLast? ≠ some slash := by
        rw [hlast]
        exact fun hslash => h.1.2.no_slash (List.mem_of_getLast? hslash)
      rw [if_neg hback, absolute, absolute, List.cons_append,
        ofSegments_append_singleton (List.concat_ne_nil _ _) name]

end Path
end Arborist
