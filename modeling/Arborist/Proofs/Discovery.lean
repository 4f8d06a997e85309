import Arborist.Proofs.Listing
import Arborist.Proofs.Runners
import Mathlib.Data.List.TakeWhile

/-!
# Which tree files are found

The pattern that tree files are looked for with takes the root and the suffix literally, so its
listing goes through everything below the root: `Discovery.search_eq` says the search by the
`Listing.places` there, and no later proof looks at the pattern.  By `Runner.mem_files_iff` a
runner checks the regular files whose name ends in the suffix, wherever they are; they come in the
order of `Listing.Precedes`.

There are limits to this.  The root has to be text, or the pattern does not lead to it
(`Runner.discover_of_not_text`); a name that is not text does not end in anything; and a path of
`Volume.pathLimit` bytes is no path to the system.
-/

namespace Arborist

open Arborist.Path

namespace Discovery

open Listing

variable {volume : Volume} {suffix : String} {names : List Name} {entries : List (Name × Entry)}

/-! ### The pattern -/

theorem toList_pattern (root : Path) (suffix : String) :
    (pattern root suffix).toList = (display root).toList.flatMap Pattern.escapeChar ++
      '/' :: '*' :: '*' :: '/' :: '*' :: suffix.toList.flatMap Pattern.escapeChar := by
  simp [pattern, Pattern.escape]

/-- The pattern is always well-formed. -/
theorem exists_compile_pattern (root : Path) (suffix : String) :
    ∃ p, Pattern.compile (pattern root suffix) = .ok p := by
  have hbelow : ∀ position before, Pattern.scan position before
      ('/' :: '*' :: '*' :: '/' :: '*' :: suffix.toList.flatMap Pattern.escapeChar) =
        .ok (.literal '/' :: .directories :: .anyText :: suffix.toList.map .ofChar) := by
    intro position before
    refine Pattern.scan_cons_of_ne (by decide) (by decide) (by decide) position before ?_
    rw [Pattern.scan, if_neg (by simp), Pattern.scan_star_escape]
    rfl
  rw [Pattern.compile, toList_pattern, Pattern.scan_escape _ hbelow]
  exact ⟨_, rfl⟩

theorem mapM_compile (names : List Name) (suffix : String) :
    (names.map (fun name => Pattern.escape (Text.lossy name)) ++
        ["**", "*" ++ Pattern.escape suffix]).mapM Pattern.compile =
      .ok (names.map (fun name => Pattern.exactly (Text.lossy name)) ++
        [⟨[.directories]⟩, Pattern.endingIn suffix]) := by
  refine mapM_eq_ok_iff.2 (List.rel_append ?_ ?_)
  · rw [List.forall₂_map_left_iff, List.forall₂_map_right_iff, List.forall₂_same]
    exact fun name _ => Pattern.compile_escape _
  · have hstars : Pattern.compile "**" = .ok ⟨[.directories]⟩ := by
      rw [Pattern.compile, show "**".toList = ['*', '*'] from rfl, Pattern.scan]
      rfl
    exact .cons hstars (.cons (Pattern.compile_star_escape suffix) .nil)

/-- The listing of the pattern follows the names of the root as text, and goes on from there. -/
theorem ofPattern_pattern (volume : Volume) (names : List Name) (hsuffix : '/' ∉ suffix.toList) :
    ofPattern volume .standard (pattern (absolute names) suffix) =
      .ok (list volume .standard false ((segments (ofSegments names)).map
        (fun name => Pattern.exactly (Text.lossy name)) ++
          [⟨[.directories]⟩, Pattern.endingIn suffix]) [slash] volume.top) := by
  obtain ⟨p, hcompile⟩ := exists_compile_pattern (absolute names) suffix
  have hslash : (display (absolute names)).toList =
      '/' :: (Text.lossy (ofSegments names)).toList := by
    rw [display_absolute, lossy_ofSegments]
    simp
  have htoList : (pattern (absolute names) suffix).toList =
      '/' :: ((Text.lossy (ofSegments names)).toList.flatMap Pattern.escapeChar ++
        '/' :: '*' :: '*' :: '/' :: '*' :: suffix.toList.flatMap Pattern.escapeChar) := by
    rw [toList_pattern, hslash, List.flatMap_cons]
    rfl
  have hlast : (pattern (absolute names) suffix).toList.getLast? ≠ some '/' := by
    intro hlast
    rw [toList_pattern, List.append_cons _ '/', List.append_cons _ '*', List.append_cons _ '*',
      List.append_cons _ '/', List.getLast?_append_of_ne_nil _ (List.cons_ne_nil _ _)] at hlast
    have hmem := List.mem_of_getLast? hlast
    rw [List.mem_cons, or_iff_right (by decide)] at hmem
    exact slash_not_mem_escape hsuffix hmem
  rw [ofPattern, hcompile]
  dsimp only [bind, Except.bind]
  rw [decide_eq_false hlast, htoList]
  split
  next rest hrest =>
    obtain ⟨-, rfl⟩ := List.cons.inj hrest
    rw [components_escape (ofSegments names) hsuffix, mapM_compile]
    rfl
  next hrelative => exact absurd rfl (hrelative _)

/-! ### Below a root -/

/-- From the top, the components of the root lead to the root. -/
theorem list_root (hv : volume.WellFormed) {e : Entry} (hat : volume.top.at? names = some e)
    (htext : Text.IsText (absolute names)) (hsize : (absolute names).length < Volume.pathLimit)
    (ps : List Pattern) :
    list volume .standard false ((segments (ofSegments names)).map
        (fun name => Pattern.exactly (Text.lossy name)) ++ ps) [slash] volume.top =
      list volume .standard false ps (absolute names) e := by
  have hnames := hv.isName_of_at? hat
  rw [isText_absolute_iff fun name hname => (hnames name hname).no_slash] at htext
  cases names with
  | nil =>
      -- the top has one component, which is empty
      cases hat
      have hfind : volume.find (absolute []) = .ok volume.top :=
        (Volume.find_absolute_iff hv (List.forall_mem_nil _)).2 ⟨by decide, rfl⟩
      have hliteral : (Pattern.exactly "").literal? = some "" := rfl
      have hjoin : join [slash] (Text.bytes "") = absolute [] := rfl
      have hsegments : segments (ofSegments []) = [[]] := rfl
      have hempty : Text.lossy [] = "" := rfl
      rw [hsegments, List.map_singleton, List.singleton_append, hempty, list_exactly_cons,
        Listing.follow, hliteral]
      dsimp only
      rw [hjoin, hfind]
  | cons name names =>
      have hsegments : segments (ofSegments (name :: names)) = name :: names :=
        segments_ofSegments (List.cons_ne_nil _ _) fun n hn => (hnames n hn).no_slash
      have hbytes : ((name :: names).map Text.lossy).map Text.bytes = name :: names := by
        rw [List.map_map]
        exact (List.map_congr_left htext).trans (List.map_id' _)
      rw [← hbytes] at hat hsize
      have hlist := list_exactly hv (Entry.at?_nil volume.top) hat hsize false ps
      rw [hbytes, List.map_map] at hlist
      rw [hsegments]
      exact hlist

theorem list_below (suffix : String) (hsize : (absolute names).length < Volume.pathLimit) :
    list volume .standard false [⟨[.directories]⟩, Pattern.endingIn suffix] (absolute names)
        (.directory entries) =
      everywhere .standard (hits (Pattern.endingIn suffix)) (absolute names) entries := by
  have hrecursive : isRecursive ⟨[.directories]⟩ = true := rfl
  have hhits : (fun path name e =>
      if fits .standard (Pattern.endingIn suffix) name then
        list volume .standard false [] path e else []) = hits (Pattern.endingIn suffix) := by
    funext path name e
    rw [list, Bool.false_and, if_neg Bool.false_ne_true, hits]
  rw [list.eq_def]
  dsimp only
  rw [if_pos hrecursive, isRecursive_endingIn, if_neg Bool.false_ne_true, hhits, inside, opened,
    if_neg (Nat.not_le.2 hsize)]

/-- A regular file whose name ends in `suffix`.  Its path has to be shorter than `Volume.pathLimit`,
for the system to take it. -/
def isTreeFile (suffix : String) (x : List Name × Entry) : Bool :=
  x.2.isFile && (absolute x.1).length < Volume.pathLimit &&
    x.1.getLast?.any (fits .standard (Pattern.endingIn suffix))

/-- The search finds the tree files among the places below the root, up to the first directory that
cannot be opened. -/
theorem search_eq (hv : volume.WellFormed) (hat : volume.top.at? names = some (.directory entries))
    (htext : Text.IsText (absolute names)) (hsize : (absolute names).length < Volume.pathLimit)
    (hsuffix : '/' ∉ suffix.toList) :
    search volume (absolute names) suffix =
      .ok ((((places names entries).takeWhile fun x => !isTooLong x).filter
          (isTreeFile suffix)).map fun x => absolute x.1,
        ((places names entries).find? isTooLong).map fun x =>
          ⟨absolute x.1, .nameTooLong⟩) := by
  have hnames := hv.isName_of_at? hat
  have hentries := hv.of_at? hat
  have hplace : ∀ x ∈ places names entries, volume.top.at? x.1 = some x.2 := by
    intro x hx
    obtain ⟨rest, -, hrest, hbelow⟩ := (mem_places_iff hentries).1 hx
    rw [hrest, Entry.at?_append, hat]
    exact hbelow
  have hisFile : ∀ x ∈ places names entries, volume.isFile (absolute x.1) =
      (x.2.isFile && (absolute x.1).length < Volume.pathLimit) :=
    fun x hx => Volume.isFile_absolute hv (hplace x hx)
  have hlong : ∀ x ∈ places names entries, isTooLong x = true →
      volume.isFile (absolute x.1) = false := by
    intro x hx hlong
    rw [isTooLong, Bool.and_eq_true, decide_eq_true_eq] at hlong
    rw [hisFile x hx, decide_eq_false (Nat.not_lt.2 hlong.2), Bool.and_false]
  rw [search, ofPattern_pattern volume names hsuffix, list_root hv hat htext hsize,
    list_below suffix hsize]
  dsimp only [bind, Except.bind]
  rw [untilTrouble_everywhere _ hnames hentries, trouble_flatMap_itemsAt,
    filter_flatMap_itemsAt _ hlong]
  have htree : ∀ x ∈ (places names entries).takeWhile fun x => !isTooLong x,
      (x.1.getLast?.any (fits .standard (Pattern.endingIn suffix)) &&
        volume.isFile (absolute x.1)) = isTreeFile suffix x := by
    intro x hx
    rw [hisFile x ((List.takeWhile_sublist _).subset hx), Bool.and_comm]
    rfl
  rw [List.filter_congr htree]
  rfl

end Discovery

namespace Runner

open Discovery Listing

variable {volume : Volume} {r : Runner} {names : List Name} {entries : List (Name × Entry)}

/-- The root of the runner `r` is the directory at `names`, its path is text and not too long, and
its suffix can be the end of a name.  Then the pattern of `Discovery.search` leads to the root. -/
structure Reaches (volume : Volume) (r : Runner) (names : List Name)
    (entries : List (Name × Entry)) : Prop where
  root_eq : r.root = absolute names
  at?_eq : volume.top.at? names = some (.directory entries)
  isText : Text.IsText r.root
  size_lt : r.root.length < Volume.pathLimit
  no_slash : '/' ∉ r.suffix.toList

namespace Reaches

theorem search_eq (h : r.Reaches volume names entries) (hv : volume.WellFormed) :
    r.search volume =
      ((((places names entries).takeWhile fun x => !isTooLong x).filter
          (isTreeFile r.suffix)).map fun x => absolute x.1,
        ((places names entries).find? isTooLong).map fun x =>
          .io (absolute x.1) .nameTooLong) := by
  have htext := h.isText
  have hsize := h.size_lt
  rw [h.root_eq] at htext hsize
  rw [Runner.search, h.root_eq, Discovery.search_eq hv h.at?_eq htext hsize h.no_slash]
  dsimp only
  rw [Option.map_map]
  rfl

theorem wellFormed (h : r.Reaches volume names entries) (hv : volume.WellFormed) :
    (Entry.directory entries).WellFormed :=
  hv.of_at? h.at?_eq

theorem isName (h : r.Reaches volume names entries) (hv : volume.WellFormed) {rest : List Name}
    {e : Entry} (hat : (Entry.directory entries).at? rest = some e) :
    ∀ name ∈ names ++ rest, IsName name :=
  List.forall_mem_append.2 ⟨hv.isName_of_at? h.at?_eq, (h.wellFormed hv).isName_of_at? hat⟩

theorem mem_places_iff (h : r.Reaches volume names entries) (hv : volume.WellFormed)
    {rest : List Name} {e : Entry} (hne : rest ≠ []) :
    (names ++ rest, e) ∈ places names entries ↔ (Entry.directory entries).at? rest = some e := by
  rw [Listing.mem_places_iff (h.wellFormed hv)]
  constructor
  · rintro ⟨rest', -, hrest, hat⟩
    rw [List.append_cancel_left_eq] at hrest
    exact hrest ▸ hat
  · intro hat
    exact ⟨rest, hne, rfl, hat⟩

end Reaches

end Runner

/-! ### Trees here and there -/

def debuggerFile : Entry := .file "\x7b\"type\":\"DebuggerStatement\"\x7d".toUTF8

/-- Tree files at several depths: one in a hidden directory, one in a directory whose name is that
of a tree file, and one that holds no text. -/
def properTrees : Volume :=
  ((((Volume.mk [] []).put ["t", "z.ast.json"] (.file ⟨#[255]⟩)).put
    ["t", "b.ast.json"] debuggerFile).put
      ["t", ".git", "a[1].ast.json"] debuggerFile).put
        ["t", "d.ast.json", "e.ast.json"] debuggerFile

def scatteredTrees : Volume := properTrees.put ["t", "b", "c.ast.json"] (.file "[]".toUTF8)

theorem wellFormed_properTrees : properTrees.WellFormed := by
  have hempty : (Volume.mk [] []).WellFormed := Entry.WellFormed.nil
  exact (((hempty.put (by decide) (.file _)).put (by decide) (.file _)).put
    (by decide) (.file _)).put (by decide) (.file _)

theorem wellFormed_scatteredTrees : scatteredTrees.WellFormed :=
  wellFormed_properTrees.put (by decide) (.file _)

namespace Runner

open Discovery Listing

variable {r : Runner}

theorem Reaches.of_top {volume : Volume} {name : Name} {entries : List (Name × Entry)}
    (hat : volume.top.at? [name] = some (.directory entries)) (hname : IsName name)
    (htext : Text.IsText name) (hroot : r.root = absolute [name])
    (hsuffix : '/' ∉ r.suffix.toList) : r.Reaches volume [name] entries where
  root_eq := hroot
  at?_eq := hat
  isText := by
    rw [hroot, isText_absolute_iff (List.forall_mem_singleton.2 hname.no_slash)]
    exact List.forall_mem_singleton.2 htext
  size_lt := by
    have hsize := hname.size_le
    have hlength : (absolute [name]).length = name.length + 1 := by simp [absolute, ofSegments]
    rw [hroot, hlength]
    simp only [Volume.nameLimit, Volume.pathLimit] at hsize ⊢
    omega
  no_slash := hsuffix

theorem search_properTrees (hroot : r.root = ("/t" : String)) (hsuffix : r.suffix = ".ast.json") :
    r.failure properTrees = none ∧
      r.candidates properTrees = (["/t/.git/a[1].ast.json", "/t/b.ast.json",
        "/t/d.ast.json/e.ast.json", "/t/z.ast.json"] : List Path) := by
  have hreaches : r.Reaches properTrees ["t"]
      [(".git", .directory [("a[1].ast.json", debuggerFile)]), ("b.ast.json", debuggerFile),
        ("d.ast.json", .directory [("e.ast.json", debuggerFile)]),
        ("z.ast.json", .file ⟨#[255]⟩)] :=
    .of_top rfl (by decide) (by decide) hroot (by rw [hsuffix]; decide)
  rw [failure, candidates, hreaches.search_eq wellFormed_properTrees, hsuffix]
  simp only [debuggerFile, places]
  exact ⟨rfl, rfl⟩

theorem search_scatteredTrees (hroot : r.root = ("/t" : String))
    (hsuffix : r.suffix = ".ast.json") :
    r.failure scatteredTrees = none ∧
      r.candidates scatteredTrees = (["/t/.git/a[1].ast.json", "/t/b/c.ast.json",
        "/t/b.ast.json", "/t/d.ast.json/e.ast.json", "/t/z.ast.json"] : List Path) := by
  have hreaches : r.Reaches scatteredTrees ["t"]
      [(".git", .directory [("a[1].ast.json", debuggerFile)]),
        ("b", .directory [("c.ast.json", .file "[]".toUTF8)]), ("b.ast.json", debuggerFile),
        ("d.ast.json", .directory [("e.ast.json", debuggerFile)]),
        ("z.ast.json", .file ⟨#[255]⟩)] :=
    .of_top rfl (by decide) (by decide) hroot (by rw [hsuffix]; decide)
  rw [failure, candidates, hreaches.search_eq wellFormed_scatteredTrees, hsuffix]
  simp only [debuggerFile, places]
  exact ⟨rfl, rfl⟩

def sparing (rules : List Rule) (keepGoing : Bool) : Runner :=
  ⟨("/t" : String), ".ast.json", rules, [⟨[.literal 'z', .anyText]⟩], keepGoing⟩

def sparingSettings : Settings := ⟨some ("/t" : String), none, ["z*"], some true⟩

theorem excludes_sparing (rules : List Rule) (keepGoing : Bool) :
    (sparing rules keepGoing).excludes = (sparing [] true).excludes := rfl

theorem files_properTrees (rules : List Rule) (keepGoing : Bool) :
    (sparing rules keepGoing).files properTrees = (["/t/.git/a[1].ast.json", "/t/b.ast.json",
      "/t/d.ast.json/e.ast.json"] : List Path) := by
  rw [files_eq, (search_properTrees rfl rfl).2, excludes_sparing]
  decide +kernel

theorem files_scatteredTrees (rules : List Rule) (keepGoing : Bool) :
    (sparing rules keepGoing).files scatteredTrees = (["/t/.git/a[1].ast.json", "/t/b/c.ast.json",
      "/t/b.ast.json", "/t/d.ast.json/e.ast.json"] : List Path) := by
  rw [files_eq, (search_scatteredTrees rfl rfl).2, excludes_sparing]
  decide +kernel

theorem compileExclude_eq_ok_iff {text : String} {p : Pattern} :
    compileExclude text = .ok p ↔ Pattern.compile text = .ok p := by
  rw [compileExclude]
  cases Pattern.compile text <;> simp

theorem compile_z : Pattern.compile "z*" = .ok ⟨[.literal 'z', .anyText]⟩ := by
  have hstar : Pattern.scan 1 (some 'z') ['*'] = .ok [.anyText] :=
    Pattern.scan_star_escape [] 1 (some 'z')
  rw [Pattern.compile, show "z*".toList = ['z', '*'] from rfl,
    Pattern.scan_cons_of_ne (by decide) (by decide) (by decide) 0 none hstar]
  rfl

theorem make_sparing (rules : List Rule) :
    make scatteredTrees .default sparingSettings rules = .ok (sparing rules true) := by
  have hroot : resolveRoot scatteredTrees ("/t" : String) = .ok ("/t" : String) := rfl
  have hexclude : ["z*"].mapM compileExclude = .ok [⟨[.literal 'z', .anyText]⟩] :=
    mapM_eq_ok_iff.2 (.cons (compileExclude_eq_ok_iff.2 compile_z) .nil)
  have henabled : (rules.filter fun rule => Config.default.isEnabled rule.name) = rules :=
    List.filter_eq_self.2 fun _ _ => rfl
  refine make_eq_ok_iff.2 ⟨_, _, hroot, by decide, hexclude, ?_⟩
  rw [henabled]
  rfl

end Runner
end Arborist
