import Arborist.Files.Listing
import Arborist.Proofs.Patterns
import Arborist.Proofs.Volumes

/-!
# Listings below a place

A pattern that begins with the names of a place, taken literally, is followed to this place
(`list_exactly`).  From there `**` goes through `places`: everything below, in the order of the
names, with each directory before what is in it.  `untilTrouble_everywhere` says that going
through a directory lists what fits among its `places`, up to the first directory whose path is too
long.
-/

namespace Arborist.Listing

open Arborist.Path Pattern

/-! ### Components -/

theorem slash_not_mem_escapeChar {c : Char} (h : c ≠ '/') : '/' ∉ escapeChar c := by
  rw [escapeChar]
  split <;> simp [h.symm]

theorem slash_not_mem_escape {cs : List Char} (h : '/' ∉ cs) : '/' ∉ cs.flatMap escapeChar := by
  rw [List.mem_flatMap]
  rintro ⟨c, hc, hslash⟩
  exact slash_not_mem_escapeChar (fun heq => h (heq ▸ hc)) hslash

/-- Escaping changes nothing about where a text is cut. -/
theorem cut_escape (cs : List Char) :
    Text.cut '/' (cs.flatMap escapeChar) = (Text.cut '/' cs).map (List.flatMap escapeChar) := by
  have hflat : cs.flatMap escapeChar =
      ['/'].intercalate ((Text.cut '/' cs).map (List.flatMap escapeChar)) := by
    conv_lhs => rw [← Text.intercalate_cut '/' cs]
    induction Text.cut '/' cs with
    | nil => rfl
    | cons piece pieces ih =>
        cases pieces with
        | nil => simp
        | cons next pieces =>
            rw [List.intercalate_cons_cons, List.flatMap_append, List.flatMap_append, ih,
              List.map_cons, List.map_cons, List.map_cons, List.intercalate_cons_cons]
            rfl
  rw [hflat, Text.cut_intercalate (by simpa using Text.cut_ne_nil '/' cs)]
  intro piece hpiece
  obtain ⟨cs', hcs, rfl⟩ := List.mem_map.1 hpiece
  exact slash_not_mem_escape (Text.not_mem_of_mem_cut hcs)

theorem cut_lossy (path : Path) :
    Text.cut '/' (Text.lossy path).toList =
      (segments path).map fun name => (Text.lossy name).toList := by
  have hpath : ofSegments (segments path) = path := Text.intercalate_cut slash path
  have hne : (segments path).map (fun name => (Text.lossy name).toList) ≠ [] := by
    simpa using segments_ne_nil path
  conv_lhs => rw [← hpath, lossy_ofSegments, String.toList_intercalate]
  rw [List.map_map]
  refine Text.cut_intercalate hne fun piece hpiece => ?_
  obtain ⟨name, hname, rfl⟩ := List.mem_map.1 hpiece
  exact Text.slash_not_mem_lossy (Text.not_mem_of_mem_cut hname)

/-- The components of a path taken literally, `**`, and any name with an ending. -/
theorem components_escape (path : Path) {suffix : String} (h : '/' ∉ suffix.toList) :
    components ((Text.lossy path).toList.flatMap escapeChar ++
      '/' :: '*' :: '*' :: '/' :: '*' :: suffix.toList.flatMap escapeChar) =
        (segments path).map (fun name => escape (Text.lossy name)) ++
          ["**", "*" ++ escape suffix] := by
  have hstars : Text.cut '/' ('*' :: '*' :: '/' :: '*' :: suffix.toList.flatMap escapeChar) =
      [['*', '*'], '*' :: suffix.toList.flatMap escapeChar] := by
    have hlast : '/' ∉ '*' :: suffix.toList.flatMap escapeChar := by
      simpa using slash_not_mem_escape h
    have hcut := @Text.cut_append_cons Char _ '/' ['*', '*'] (by decide)
      ('*' :: suffix.toList.flatMap escapeChar)
    rwa [Text.cut_of_not_mem hlast] at hcut
  have hcut : Text.cut '/' ((Text.lossy path).toList.flatMap escapeChar ++
      '/' :: '*' :: '*' :: '/' :: '*' :: suffix.toList.flatMap escapeChar) =
        (segments path).map (fun name => (Text.lossy name).toList.flatMap escapeChar) ++
          [['*', '*'], '*' :: suffix.toList.flatMap escapeChar] := by
    rw [Text.cut_append, cut_escape, cut_lossy, List.map_map, hstars]
    rfl
  rw [components, hcut, if_neg (by simp), List.map_append, List.map_map]
  simp [escape]

/-! ### Literal components -/

theorem fits_exactly_iff {text : String} {name : Name} :
    fits .standard (exactly text) name = true ↔ name = Text.bytes text := by
  rw [fits]
  cases hname : Text.ofBytes? name with
  | some other =>
      rw [Text.ofBytes?_eq_some_iff] at hname
      dsimp only
      rw [accepts_exactly_iff, ← hname, Text.bytes_inj]
  | none =>
      refine ⟨nofun, ?_⟩
      rintro rfl
      rw [Text.ofBytes?_bytes] at hname
      cases hname

theorem isRecursive_exactly (text : String) : isRecursive (exactly text) = false := by
  rw [isRecursive, exactly, Bool.eq_false_iff]
  intro hmem
  obtain ⟨c, -, hc⟩ := List.mem_map.1 (List.contains_iff_mem.1 hmem)
  have hstands := standsFor_ofChar c
  rw [hc] at hstands
  cases hstands

theorem isRecursive_endingIn (text : String) : isRecursive (endingIn text) = false :=
  isRecursive_exactly text

theorem isHidden_standard (name : Name) : isHidden .standard name = false := rfl

variable {v : Volume} {names : List Name} {e below : Entry}

/-- A literal component leads from a directory to the entry of this name. -/
theorem follow_exactly (hv : v.WellFormed) {text : String} (hat : v.top.at? names = some e)
    (hfind : Members.find? e.entries (Text.bytes text) = some below)
    (hsize : (absolute (names ++ [Text.bytes text])).length < Volume.pathLimit)
    (next : Path → Entry → List Item) :
    follow v .standard (exactly text) next (absolute names) e =
      next (absolute (names ++ [Text.bytes text])) below := by
  have hbelow : v.top.at? (names ++ [Text.bytes text]) = some below := by
    rw [Entry.at?_append, hat, Option.bind_some, Entry.at?_cons, hfind]
    rfl
  have hnames := hv.isName_of_at? hbelow
  have hjoin := join_absolute hnames
  rw [follow]
  cases hliteral : (exactly text).literal? with
  | some name =>
      obtain rfl := literal?_exactly hliteral
      dsimp only
      rw [hjoin, (Volume.find_absolute_iff hv hnames).2 ⟨hsize, hbelow⟩]
  | none =>
      cases e with
      | file content => cases hfind
      | directory entries =>
          have hsorted : Members.Sorted entries := by
            cases hv.of_at? hat with
            | directory sorted isName below => exact sorted
          have hshort : ¬ Volume.pathLimit ≤ (absolute names).length := by
            have hle := (absolute_prefix_append names [Text.bytes text]).length_le
            omega
          have hpick := hsorted.flatMap_of_find? hfind fun x => next (join (absolute names) x.1) x.2
          rw [hjoin] at hpick
          rw [← hpick]
          dsimp only [inside]
          rw [opened, if_neg hshort]
          simp only [isHidden_standard, Bool.not_false, Bool.true_and, fits_exactly_iff]

theorem list_exactly_cons (onlyDirectories : Bool) (text : String) (ps : List Pattern) (path : Path)
    (e : Entry) :
    list v .standard onlyDirectories (exactly text :: ps) path e =
      follow v .standard (exactly text) (list v .standard onlyDirectories ps) path e := by
  rw [list.eq_def]
  dsimp only
  rw [if_neg (Bool.eq_false_iff.1 (isRecursive_exactly text))]

/-- Literal components lead to the place that their texts name. -/
theorem list_exactly (hv : v.WellFormed) {texts : List String} (hat : v.top.at? names = some e)
    (hbelow : e.at? (texts.map Text.bytes) = some below)
    (hsize : (absolute (names ++ texts.map Text.bytes)).length < Volume.pathLimit)
    (onlyDirectories : Bool) (ps : List Pattern) :
    list v .standard onlyDirectories (texts.map exactly ++ ps) (absolute names) e =
      list v .standard onlyDirectories ps (absolute (names ++ texts.map Text.bytes)) below := by
  induction texts generalizing names e with
  | nil =>
      cases hbelow
      rw [List.map_nil, List.map_nil, List.nil_append, List.append_nil]
  | cons text texts ih =>
      rw [List.map_cons, Entry.at?_cons] at hbelow
      obtain ⟨next, hfind, hbelow⟩ := Option.bind_eq_some_iff.1 hbelow
      have hnext : v.top.at? (names ++ [Text.bytes text]) = some next := by
        rw [Entry.at?_append, hat, Option.bind_some, Entry.at?_cons, hfind]
        rfl
      rw [List.map_cons, List.append_cons] at hsize
      have hle :=
        (absolute_prefix_append (names ++ [Text.bytes text]) (texts.map Text.bytes)).length_le
      rw [List.map_cons, List.map_cons, List.cons_append, list_exactly_cons,
        follow_exactly hv hat hfind (Nat.lt_of_le_of_lt hle hsize), ih hnext hbelow hsize,
        ← List.append_cons]

/-! ### Everything below a place -/

/-- The places below the directory at `place`, in the order of a listing: an entry comes before what
is in it, and all of that before the entries of later names. -/
def places (place : List Name) : List (Name × Entry) → List (List Name × Entry)
  | [] => []
  | (name, .file content) :: rest => (place ++ [name], .file content) :: places place rest
  | (name, .directory entries) :: rest =>
    (place ++ [name], .directory entries) :: places (place ++ [name]) entries ++ places place rest

/-- The places below a directory are all those that names lead to from there. -/
theorem mem_places_iff {place : List Name} {entries : List (Name × Entry)} {x : List Name × Entry}
    (h : (Entry.directory entries).WellFormed) :
    x ∈ places place entries ↔
      ∃ rest, rest ≠ [] ∧ x.1 = place ++ rest ∧ (Entry.directory entries).at? rest = some x.2 := by
  obtain ⟨names, e⟩ := x
  induction place, entries using places.induct with
  | case1 place =>
      rw [places]
      refine ⟨nofun, ?_⟩
      rintro ⟨rest, hne, -, hat⟩
      obtain ⟨first, rest, rfl⟩ := List.exists_cons_of_ne_nil hne
      cases hat
  | case2 place name content rest ih =>
      rw [places, List.mem_cons, ih h.tail]
      constructor
      · rintro (heq | ⟨names, hne, hnames, hat⟩)
        · cases heq
          exact ⟨[name], by simp, rfl, (h.at?_directory_cons_iff (by simp)).2 (.inl ⟨[], rfl, rfl⟩)⟩
        · exact ⟨names, hne, hnames, (h.at?_directory_cons_iff hne).2 (.inr hat)⟩
      · rintro ⟨names, hne, rfl, hat⟩
        rcases (h.at?_directory_cons_iff hne).1 hat with ⟨below, rfl, hbelow⟩ | hat
        · cases below with
          | nil =>
              cases hbelow
              exact .inl rfl
          | cons next below => cases hbelow
        · exact .inr ⟨names, hne, rfl, hat⟩
  | case3 place name entries rest ihbelow ihrest =>
      rw [places, List.mem_append, List.mem_cons, ihbelow h.head, ihrest h.tail, or_assoc]
      constructor
      · rintro (heq | ⟨names, hne, rfl, hat⟩ | ⟨names, hne, hnames, hat⟩)
        · cases heq
          exact ⟨[name], by simp, rfl, (h.at?_directory_cons_iff (by simp)).2 (.inl ⟨[], rfl, rfl⟩)⟩
        · exact ⟨name :: names, by simp, (List.append_cons _ _ _).symm,
            (h.at?_directory_cons_iff (by simp)).2 (.inl ⟨names, rfl, hat⟩)⟩
        · exact ⟨names, hne, hnames, (h.at?_directory_cons_iff hne).2 (.inr hat)⟩
      · rintro ⟨names, hne, rfl, hat⟩
        rcases (h.at?_directory_cons_iff hne).1 hat with ⟨below, rfl, hbelow⟩ | hat
        · cases below with
          | nil =>
              cases hbelow
              exact .inl rfl
          | cons next below =>
              exact .inr (.inl ⟨next :: below, by simp, List.append_cons _ _ _, hbelow⟩)
        · exact .inr (.inr ⟨names, hne, rfl, hat⟩)

/-- Two places part somewhere, and there the way to the first goes by the name whose bytes come
first. -/
def Precedes (names names' : List Name) : Prop :=
  ∃ stem name name' rest rest',
    names = stem ++ name :: rest ∧ names' = stem ++ name' :: rest' ∧ name < name'

theorem Precedes.ne {names names' : List Name} (h : Precedes names names') : names ≠ names' := by
  obtain ⟨stem, name, name', rest, rest', rfl, rfl, hlt⟩ := h
  intro heq
  rw [List.append_cancel_left_eq, List.cons.injEq] at heq
  exact Std.ne_of_lt hlt heq.1

theorem Precedes.cons {names names' : List Name} (h : Precedes names names') (first : Name) :
    Precedes (first :: names) (first :: names') := by
  obtain ⟨stem, name, name', rest, rest', rfl, rfl, hlt⟩ := h
  exact ⟨first :: stem, name, name', rest, rest', rfl, rfl, hlt⟩

def isTooLong (x : List Name × Entry) : Bool :=
  x.2.isDirectory && Volume.pathLimit ≤ (absolute x.1).length

/-- What a listing with `p` says about one place: it is listed if its name fits, and there is
trouble if it is a directory that `isTooLong`. -/
def itemsAt (p : Pattern) (x : List Name × Entry) : List Item :=
  (if x.1.getLast?.any (fits .standard p) then [.ok (absolute x.1)] else []) ++
    if isTooLong x then [.error ⟨absolute x.1, .nameTooLong⟩] else []

/-- One listing after another goes on only if there is no trouble. -/
theorem untilTrouble_append (as bs : List Item) :
    untilTrouble (as ++ bs) =
      match untilTrouble as with
      | (paths, some t) => (paths, some t)
      | (paths, none) => (paths ++ (untilTrouble bs).1, (untilTrouble bs).2) := by
  induction as with
  | nil => rfl
  | cons a as ih =>
      cases a with
      | error t => rfl
      | ok path =>
          rw [List.cons_append, untilTrouble, untilTrouble, ih]
          cases untilTrouble as with
          | mk paths trouble => cases trouble <;> rfl

theorem untilTrouble_append_congr {as as' bs bs' : List Item}
    (has : untilTrouble as = untilTrouble as') (hbs : untilTrouble bs = untilTrouble bs') :
    untilTrouble (as ++ bs) = untilTrouble (as' ++ bs') := by
  rw [untilTrouble_append, untilTrouble_append, has, hbs]

def hits (p : Pattern) (path : Path) (name : Name) (_ : Entry) : List Item :=
  if fits .standard p name then [.ok path] else []

theorem itemsAt_file (p : Pattern) (place : List Name) (name : Name) (content : ByteArray) :
    itemsAt p (place ++ [name], .file content) =
      hits p (absolute (place ++ [name])) name (.file content) := by
  rw [itemsAt, List.getLast?_concat, Option.any_some, isTooLong, Entry.isDirectory,
    Bool.false_and, if_neg Bool.false_ne_true, List.append_nil, hits]

theorem itemsAt_directory (p : Pattern) (place : List Name) (name : Name)
    (entries : List (Name × Entry)) :
    itemsAt p (place ++ [name], .directory entries) =
      hits p (absolute (place ++ [name])) name (.directory entries) ++
        opened (absolute (place ++ [name])) [] := by
  rw [itemsAt, List.getLast?_concat, Option.any_some, isTooLong, Entry.isDirectory,
    Bool.true_and, hits, opened]
  simp only [decide_eq_true_eq]

/-- Going through a directory lists what fits among its places, up to the first trouble. -/
theorem untilTrouble_everywhere (p : Pattern) {place : List Name} {entries : List (Name × Entry)}
    (hplace : ∀ name ∈ place, IsName name) (h : (Entry.directory entries).WellFormed) :
    untilTrouble (everywhere .standard (hits p) (absolute place) entries) =
      untilTrouble ((places place entries).flatMap (itemsAt p)) := by
  induction place, entries using places.induct with
  | case1 place => rw [everywhere, places, List.flatMap_nil]
  | case2 place name content rest ih =>
      have hjoin :=
        join_absolute (List.forall_mem_append.2 ⟨hplace, List.forall_mem_singleton.2 h.head_isName⟩)
      rw [everywhere, isHidden_standard, if_neg Bool.false_ne_true, hjoin, places,
        List.flatMap_cons, itemsAt_file]
      exact untilTrouble_append_congr rfl (ih hplace h.tail)
  | case3 place name entries rest ihbelow ihrest =>
      have hbelow := List.forall_mem_append.2 ⟨hplace, List.forall_mem_singleton.2 h.head_isName⟩
      have hjoin := join_absolute hbelow
      rw [everywhere, isHidden_standard, if_neg Bool.false_ne_true, hjoin, places,
        List.flatMap_append, List.flatMap_cons, itemsAt_directory]
      refine untilTrouble_append_congr ?_ (ihrest hplace h.tail)
      rw [List.append_assoc]
      refine untilTrouble_append_congr rfl ?_
      rw [opened, opened]
      split
      next hlong => rfl
      next hshort => exact ihbelow hbelow h.head

theorem untilTrouble_itemsAt_append (p : Pattern) (x : List Name × Entry) (items : List Item) :
    untilTrouble (itemsAt p x ++ items) =
      let here := if x.1.getLast?.any (fits .standard p) then [absolute x.1] else []
      if isTooLong x then (here, some ⟨absolute x.1, .nameTooLong⟩)
      else (here ++ (untilTrouble items).1, (untilTrouble items).2) := by
  rw [itemsAt]
  cases x.1.getLast?.any (fits .standard p) <;> cases isTooLong x <;> rfl

/-- The trouble of a listing is with the first directory that cannot be opened. -/
theorem trouble_flatMap_itemsAt (p : Pattern) (xs : List (List Name × Entry)) :
    (untilTrouble (xs.flatMap (itemsAt p))).2 =
      (xs.find? isTooLong).map fun x => ⟨absolute x.1, .nameTooLong⟩ := by
  induction xs with
  | nil => rfl
  | cons x xs ih =>
      rw [List.flatMap_cons, untilTrouble_itemsAt_append]
      cases hlong : isTooLong x with
      | true => rw [List.find?_cons_of_pos hlong]; rfl
      | false => rw [List.find?_cons_of_neg (by simp [hlong]), ← ih]; rfl

/-- The paths of a listing that are kept are those of the places before the first directory that
cannot be opened, as far as they fit. -/
theorem filter_flatMap_itemsAt (p : Pattern) {keep : Path → Bool} {xs : List (List Name × Entry)}
    (h : ∀ x ∈ xs, isTooLong x = true → keep (absolute x.1) = false) :
    (untilTrouble (xs.flatMap (itemsAt p))).1.filter keep =
      ((xs.takeWhile fun x => !isTooLong x).filter fun x =>
        x.1.getLast?.any (fits .standard p) && keep (absolute x.1)).map fun x => absolute x.1 := by
  induction xs with
  | nil => rfl
  | cons x xs ih =>
      rw [List.forall_mem_cons] at h
      rw [List.flatMap_cons, untilTrouble_itemsAt_append]
      cases hlong : isTooLong x with
      | true =>
          rw [List.takeWhile_cons_of_neg (by simp [hlong])]
          cases x.1.getLast?.any (fits .standard p) <;> simp [h.1 hlong]
      | false =>
          rw [List.takeWhile_cons_of_pos (by simp [hlong])]
          cases hfits : x.1.getLast?.any (fits .standard p) <;>
            cases hkeep : keep (absolute x.1) <;> simp [hfits, hkeep, ih h.2]

end Arborist.Listing
