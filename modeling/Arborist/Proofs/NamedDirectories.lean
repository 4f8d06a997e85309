import Arborist.Proofs.Excludes

/-!
# Leaving out directories by name

The pattern `**/name/**` is there to leave out everything below directories of a name, wherever they
are.  It is read as any number of directories, the characters of the name, a slash, and any number
of directories again (`Pattern.compile_belowNamed`).  The last of these takes whatever is left, so a
path is accepted if the name and a slash stand at its beginning or behind a slash
(`Pattern.accepts_belowNamed_iff`).  Going through the directories of a path one by one, this comes
to the name being one of them (`Pattern.accepts_belowNamed_intercalate`).
-/

namespace Arborist

namespace Pattern

/-- A name all of whose characters stand for themselves in a pattern, and that is one component of a
path. -/
def IsPlain (name : String) : Prop :=
  ∀ c ∈ name.toList, c ∉ ['/', '*', '?', '[']

theorem IsPlain.no_slash {name : String} (h : IsPlain name) : '/' ∉ name.toList :=
  fun hslash => h '/' hslash List.mem_cons_self

def belowNamed (name : String) : Pattern :=
  ⟨.directories :: (name.toList.map .literal ++ [.literal '/', .directories])⟩

/-! ### Reading -/

theorem scan_append {cs : List Char} (h : ∀ c ∈ cs, c ≠ '*' ∧ c ≠ '?' ∧ c ≠ '[') {rest : List Char}
    {tokens : List Token} (hrest : ∀ position before, scan position before rest = .ok tokens)
    (position : Nat) (before : Option Char) :
    scan position before (cs ++ rest) = .ok (cs.map .literal ++ tokens) := by
  induction cs generalizing position before with
  | nil => exact hrest position before
  | cons c cs ih =>
      obtain ⟨⟨hstar, hquestion, hbracket⟩, hcs⟩ := List.forall_mem_cons.1 h
      exact scan_cons_of_ne hstar hquestion hbracket position before (ih hcs _ _)

theorem scan_slash_stars (position : Nat) (before : Option Char) :
    scan position before ['/', '*', '*'] = .ok [.literal '/', .directories] := by
  refine scan_cons_of_ne (by decide) (by decide) (by decide) position before ?_
  rw [scan]
  rfl

theorem compile_belowNamed {name : String} (h : IsPlain name) :
    compile ("**/" ++ name ++ "/**") = .ok (belowNamed name) := by
  have htext : ("**/" ++ name ++ "/**").toList =
      '*' :: '*' :: '/' :: (name.toList ++ ['/', '*', '*']) := by simp
  have hscan : scan 3 (some '/') (name.toList ++ ['/', '*', '*']) =
      .ok (name.toList.map .literal ++ [.literal '/', .directories]) := by
    refine scan_append (fun c hc => ?_) scan_slash_stars 3 (some '/')
    have hmark := h c hc
    simp only [List.mem_cons, not_or] at hmark
    exact ⟨hmark.2.1, hmark.2.2.1, hmark.2.2.2.1⟩
  rw [compile, htext, scan, if_neg (by simp), hscan, belowNamed]
  cases name.toList <;> rfl

/-! ### Matching -/

theorem standsFor_map_literal (word : List Char) :
    List.Forall₂ Token.StandsFor (word.map .literal) word := by
  rw [List.forall₂_map_left_iff, List.forall₂_same]
  exact fun c _ => .literal c

theorem tailsAfterSlash_cons (c : Char) (cs : List Char) :
    tailsAfterSlash ((c :: cs).map .plain) =
      if c = '/' then cs.map .plain :: tailsAfterSlash (cs.map .plain)
      else tailsAfterSlash (cs.map .plain) := rfl

/-- Any number of directories at the end of a pattern takes whatever is left. -/
theorem leavesNothing_directories (cs : List Char) :
    leavesNothing [.directories] (cs.map .plain) = true := by
  have hnil : [] ∈ tailsAfterSlash (cs.map .plain) := by
    induction cs with
    | nil => exact List.mem_singleton_self []
    | cons c cs ih =>
        rw [tailsAfterSlash_cons]
        split
        · exact List.mem_cons_of_mem _ ih
        · exact ih
  exact List.any_eq_true.2 ⟨[], List.mem_cons_of_mem _ hnil, rfl⟩

theorem tailsAfterSlash_of_not_mem {cs : List Char} (h : '/' ∉ cs) :
    tailsAfterSlash (cs.map .plain) = [[]] := by
  induction cs with
  | nil => rfl
  | cons c cs ih =>
      rw [List.mem_cons, not_or] at h
      rw [tailsAfterSlash_cons, if_neg (Ne.symm h.1), ih h.2]

theorem tailsAfterSlash_append_slash {cs : List Char} (h : '/' ∉ cs) (rest : List Char) :
    tailsAfterSlash ((cs ++ '/' :: rest).map .plain) =
      rest.map .plain :: tailsAfterSlash (rest.map .plain) := by
  induction cs with
  | nil => rfl
  | cons c cs ih =>
      rw [List.mem_cons, not_or] at h
      rw [List.cons_append, tailsAfterSlash_cons, if_neg (Ne.symm h.1), ih h.2]

/-- The directories of `**` end behind a slash, or where the text does. -/
theorem exists_of_mem_tailsAfterSlash {cs : List Char} {tail : List Letter}
    (h : tail ∈ tailsAfterSlash (cs.map .plain)) : ∃ rest : List Char, tail = rest.map .plain := by
  induction cs with
  | nil => exact ⟨[], by simpa [tailsAfterSlash] using h⟩
  | cons c cs ih =>
      rw [tailsAfterSlash_cons] at h
      split at h
      next =>
        rcases List.mem_cons.1 h with rfl | h
        · exact ⟨cs, rfl⟩
        · exact ih h
      next => exact ih h

theorem map_plain_inj {cs ds : List Char} : cs.map Letter.plain = ds.map .plain ↔ cs = ds :=
  (List.map_injective_iff.2 fun _ _ h => congrArg Letter.char h).eq_iff

theorem accepts_belowNamed_iff (name text : String) :
    (belowNamed name).accepts .standard text = true ↔
      ∃ tail ∈ text.toList.map Letter.plain :: tailsAfterSlash (text.toList.map .plain),
        ∃ rest, tail = (name.toList ++ '/' :: rest).map .plain := by
  have hword : ∀ tail : List Char,
      leavesNothing (name.toList.map .literal ++ [.literal '/', .directories])
        (tail.map .plain) = true ↔ ∃ rest, tail = name.toList ++ '/' :: rest := by
    intro tail
    rw [leavesNothing_append (standsFor_map_literal _)]
    constructor
    · rintro ⟨rest, rfl, hrest⟩
      obtain ⟨rest, rfl, -⟩ :=
        (leavesNothing_append (standsFor_map_literal ['/']) [.directories] rest).1 hrest
      exact ⟨rest, rfl⟩
    · rintro ⟨rest, rfl⟩
      exact ⟨_, rfl, (leavesNothing_append (standsFor_map_literal ['/']) [.directories] _).2
        ⟨rest, rfl, leavesNothing_directories rest⟩⟩
  rw [accepts_standard, belowNamed, leavesNothing, List.any_eq_true]
  refine exists_congr fun tail => and_congr_right fun htail => ?_
  obtain ⟨cs, rfl⟩ : ∃ cs : List Char, tail = cs.map .plain := by
    rcases List.mem_cons.1 htail with rfl | htail
    · exact ⟨_, rfl⟩
    · exact exists_of_mem_tailsAfterSlash htail
  simp only [hword, map_plain_inj]

/-- Texts without slashes are told apart although something may come behind a slash. -/
theorem eq_of_append_slash_eq {cs ds rest rest' : List Char} (hcs : '/' ∉ cs) (hds : '/' ∉ ds)
    (h : cs ++ '/' :: rest = ds ++ '/' :: rest') : cs = ds := by
  have hcut := congrArg (Text.cut '/') h
  rw [Text.cut_append_cons hcs, Text.cut_append_cons hds] at hcut
  exact (List.cons.inj hcut).1

/-- A path is accepted exactly if one of its directories has the name. -/
theorem accepts_belowNamed_intercalate {name last : String} {dirs : List String}
    (hname : '/' ∉ name.toList) (h : ∀ s ∈ dirs ++ [last], '/' ∉ s.toList) :
    (belowNamed name).accepts .standard ("/".intercalate (dirs ++ [last])) = true ↔
      name ∈ dirs := by
  rw [accepts_belowNamed_iff]
  induction dirs with
  | nil =>
      have hlast : '/' ∉ last.toList := h last List.mem_cons_self
      have hslash : ∀ rest, last.toList ≠ name.toList ++ '/' :: rest := by
        intro rest heq
        exact hlast (heq ▸ List.mem_append_right _ List.mem_cons_self)
      have hlast' : "/".intercalate ([] ++ [last]) = last := by simp
      rw [hlast', tailsAfterSlash_of_not_mem hlast]
      simp only [List.exists_mem_cons_iff, map_plain_inj, hslash, exists_false, false_or]
      simp
  | cons dir dirs ih =>
      obtain ⟨hdir, hrest⟩ := List.forall_mem_cons.1 h
      obtain ⟨next, rest, hnext⟩ := List.exists_cons_of_ne_nil (List.concat_ne_nil last dirs)
      have htext : ("/".intercalate (dir :: dirs ++ [last])).toList =
          dir.toList ++ '/' :: ("/".intercalate (dirs ++ [last])).toList := by
        rw [List.cons_append, hnext, String.intercalate_cons_cons]
        simp
      -- the name stands at the beginning, or it is looked for behind the first slash
      have hhere : (∃ rest, dir.toList ++ '/' :: ("/".intercalate (dirs ++ [last])).toList =
          name.toList ++ '/' :: rest) ↔ name = dir := by
        constructor
        · rintro ⟨rest, heq⟩
          exact String.toList_inj.1 (eq_of_append_slash_eq hdir hname heq).symm
        · rintro rfl
          exact ⟨_, rfl⟩
      rw [htext, tailsAfterSlash_append_slash hdir, List.exists_mem_cons_iff, ih hrest,
        List.mem_cons]
      simp only [map_plain_inj, hhere]

end Pattern

namespace Runner

open Discovery

/-- A runner whose only exclude pattern is `**/name/**` can be made if it can be made without the
pattern, and it leaves out a file exactly if one of the directories on the path from the root to the
file has the name. -/
theorem excludes_exactly_below_named {volume : Volume} {config : Config} {settings : Settings}
    {rules : List Rule} {name : String} (hname : Pattern.IsPlain name)
    (honly : settings.exclude ++ config.runner.exclude = ["**/" ++ name ++ "/**"]) :
    ∃ p, Pattern.compile ("**/" ++ name ++ "/**") = .ok p ∧
      (∀ (dirs : List String) (last : String), (∀ s ∈ dirs ++ [last], '/' ∉ s.toList) →
        (p.accepts .standard ("/".intercalate (dirs ++ [last])) = true ↔ name ∈ dirs)) ∧
      make volume config settings rules =
        (make volume (config.withExclude []) (settings.withExclude []) rules).map
          (fun r => { r with exclude := [p] }) ∧
      ∀ r, make volume config settings rules = .ok r →
        ∀ (file : Path) (dirs : List String) (last : String),
          (∀ s ∈ dirs ++ [last], '/' ∉ s.toList) →
          relativePath r.root file = "/".intercalate (dirs ++ [last]) →
          (r.excludes file = true ↔ name ∈ dirs) ∧
          (file ∈ r.files volume ↔ file ∈ r.candidates volume ∧ name ∉ dirs) := by
  have hcompile := Pattern.compile_belowNamed hname
  have hexclude : (settings.exclude ++ config.runner.exclude).mapM compileExclude =
      .ok [Pattern.belowNamed name] := by
    rw [honly]
    exact mapM_eq_ok_iff.2 (.cons (compileExclude_eq_ok_iff.2 hcompile) .nil)
  have haccepts := fun dirs last =>
    @Pattern.accepts_belowNamed_intercalate name last dirs hname.no_slash
  refine ⟨_, hcompile, haccepts, make_eq_map hexclude,
    fun r hmake file dirs last hslash hpath => ?_⟩
  obtain ⟨root, exclude, -, -, hmapM, rfl⟩ := make_eq_ok_iff.1 hmake
  obtain rfl : [Pattern.belowNamed name] = exclude :=
    Except.ok.inj (hexclude.symm.trans hmapM)
  rw [files_eq, List.mem_filter, Bool.not_eq_true', Bool.eq_false_iff, excludes, hpath]
  simp only [List.any_cons, List.any_nil, Bool.or_false, Ne, haccepts dirs last hslash, and_self]

theorem excludes_exactly_below_named_scatteredTrees :
    ∃ r, make scatteredTrees .default (sparingSettings.withExclude ["**/b/**"]) [] = .ok r ∧
      r.excludes ("/t/b/c.ast.json" : String) = true ∧
      Text.bytes "/t/b/c.ast.json" ∉ r.files scatteredTrees ∧
      r.excludes ("/t/b.ast.json" : String) = false ∧
      Text.bytes "/t/b.ast.json" ∈ r.files scatteredTrees := by
  have hplain : Pattern.IsPlain "b" := by simp [Pattern.IsPlain]
  have honly : (sparingSettings.withExclude ["**/b/**"]).exclude ++
      Config.default.runner.exclude = ["**/" ++ "b" ++ "/**"] := by
    decide
  obtain ⟨p, -, -, hmake, hexcludes⟩ :=
    @excludes_exactly_below_named scatteredTrees _ _ [] _ hplain honly
  have hbare : make scatteredTrees (Config.default.withExclude [])
      (sparingSettings.withExclude []) [] = .ok ⟨("/t" : String), ".ast.json", [], [], true⟩ :=
    make_eq_ok_iff.2 ⟨_, _, rfl, by decide, rfl, rfl⟩
  have hr := hmake.trans (congrArg (Except.map fun r => { r with exclude := [p] }) hbare)
  have hcandidates := (@search_scatteredTrees
    ⟨("/t" : String), ".ast.json", [], [p], true⟩ rfl rfl).2
  have hpath : relativePath ("/t" : String) ("/t/b/c.ast.json" : String) =
      "/".intercalate (["b"] ++ ["c.ast.json"]) := by
    decide +kernel
  have hpath' : relativePath ("/t" : String) ("/t/b.ast.json" : String) =
      "/".intercalate ([] ++ ["b.ast.json"]) := by
    decide +kernel
  obtain ⟨hbelow, hleft⟩ := hexcludes _ hr _ ["b"] "c.ast.json" (by simp) hpath
  obtain ⟨hbeside, hkept⟩ := hexcludes _ hr _ [] "b.ast.json" (by simp) hpath'
  refine ⟨_, hr, hbelow.2 (by simp), fun hmem => (hleft.1 hmem).2 (by simp), ?_,
    hkept.2 ⟨?_, by simp⟩⟩
  · exact Bool.eq_false_iff.2 fun h => List.not_mem_nil (hbeside.1 h)
  · rw [hcandidates]
    simp

end Runner
end Arborist
