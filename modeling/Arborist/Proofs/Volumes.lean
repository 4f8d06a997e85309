import Arborist.Proofs.Decoding
import Arborist.Proofs.Members
import Arborist.Proofs.Paths
import Mathlib.Data.List.Induction

/-!
# Volumes

In a well-formed volume the entries of every directory have proper names and stand in the order of
these.  There every place has one path without detours, and `Volume.locate_absolute` says that this
path leads to it; by `Volume.find_absolute_iff` the system finds what is there if the path is not
too long.
-/

namespace Arborist

open Arborist.Path

namespace Entry

/-- Every directory has its entries in order, with names that an entry can have (`IsName`). -/
inductive WellFormed : Entry → Prop
  | file (content : ByteArray) : WellFormed (.file content)
  | directory {entries : List (Name × Entry)} (sorted : Members.Sorted entries)
      (isName : ∀ e ∈ entries, IsName e.1) (below : ∀ e ∈ entries, WellFormed e.2) :
      WellFormed (.directory entries)

@[simp] theorem at?_nil (e : Entry) : e.at? [] = some e := rfl

theorem at?_cons (e : Entry) (name : Name) (names : List Name) :
    e.at? (name :: names) = (Members.find? e.entries name).bind fun below => below.at? names := by
  rw [at?]
  cases Members.find? e.entries name <;> rfl

theorem at?_append (e : Entry) (names names' : List Name) :
    e.at? (names ++ names') = (e.at? names).bind fun below => below.at? names' := by
  induction names generalizing e with
  | nil => rfl
  | cons name names ih =>
      rw [List.cons_append, at?_cons, at?_cons, Option.bind_assoc]
      simp only [ih]

namespace WellFormed

theorem of_find? {e below : Entry} {name : Name} (h : e.WellFormed)
    (hfind : Members.find? e.entries name = some below) :
    IsName name ∧ below.WellFormed := by
  cases h with
  | file content => cases hfind
  | directory sorted isName hbelow =>
      have hmem := Members.mem_of_find? hfind
      exact ⟨isName _ hmem, hbelow _ hmem⟩

theorem isName_of_at? {e below : Entry} {names : List Name} (h : e.WellFormed)
    (hat : e.at? names = some below) :
    ∀ name ∈ names, IsName name := by
  induction names generalizing e with
  | nil => intro name hname; cases hname
  | cons name names ih =>
      rw [at?_cons] at hat
      obtain ⟨next, hfind, hat⟩ := Option.bind_eq_some_iff.1 hat
      obtain ⟨hname, hnext⟩ := h.of_find? hfind
      exact List.forall_mem_cons.2 ⟨hname, ih hnext hat⟩

theorem of_at? {e below : Entry} {names : List Name} (h : e.WellFormed)
    (hat : e.at? names = some below) : below.WellFormed := by
  induction names generalizing e with
  | nil =>
      cases hat
      exact h
  | cons name names ih =>
      rw [at?_cons] at hat
      obtain ⟨next, hfind, hat⟩ := Option.bind_eq_some_iff.1 hat
      exact ih (h.of_find? hfind).2 hat

section Cons

variable {x : Name × Entry} {entries : List (Name × Entry)}

theorem head_isName (h : (Entry.directory (x :: entries)).WellFormed) : IsName x.1 := by
  cases h with
  | directory sorted isName below => exact isName x List.mem_cons_self

theorem head (h : (Entry.directory (x :: entries)).WellFormed) : x.2.WellFormed := by
  cases h with
  | directory sorted isName below => exact below x List.mem_cons_self

theorem tail (h : (Entry.directory (x :: entries)).WellFormed) :
    (Entry.directory entries).WellFormed := by
  cases h with
  | directory sorted isName below =>
      exact .directory (List.pairwise_cons.1 sorted).2 (List.forall_mem_cons.1 isName).2
        (List.forall_mem_cons.1 below).2

theorem head_lt (h : (Entry.directory (x :: entries)).WellFormed) {y : Name × Entry}
    (hy : y ∈ entries) : x.1 < y.1 := by
  cases h with
  | directory sorted isName below =>
      exact (List.pairwise_cons.1 sorted).1 y.1 (List.mem_map_of_mem hy)

/-- What is below a directory is below its first entry or below the others; no entry hides another
one. -/
theorem at?_directory_cons_iff (h : (Entry.directory (x :: entries)).WellFormed) {e : Entry}
    {names : List Name} (hne : names ≠ []) :
    (Entry.directory (x :: entries)).at? names = some e ↔
      (∃ rest, names = x.1 :: rest ∧ x.2.at? rest = some e) ∨
        (Entry.directory entries).at? names = some e := by
  obtain ⟨first, rest, rfl⟩ := List.exists_cons_of_ne_nil hne
  rw [at?_cons, at?_cons, Entry.entries, Entry.entries, Members.find?_cons]
  by_cases hfirst : first = x.1
  · have hnone : Members.find? entries x.1 = none := by
      rw [Option.eq_none_iff_forall_ne_some]
      intro below hbelow
      exact Std.ne_of_lt (h.head_lt (Members.mem_of_find? hbelow)) rfl
    simp [hfirst, hnone]
  · simp [hfirst]

end Cons

theorem nil : (Entry.directory []).WellFormed :=
  .directory .nil (fun _ he => absurd he List.not_mem_nil) fun _ he => absurd he List.not_mem_nil

theorem entries {e : Entry} (h : e.WellFormed) : (Entry.directory e.entries).WellFormed := by
  cases h with
  | file content => exact nil
  | directory sorted isName below => exact .directory sorted isName below

theorem insert {entries : List (Name × Entry)} {name : Name} {e : Entry}
    (h : (Entry.directory entries).WellFormed) (hname : IsName name) (he : e.WellFormed) :
    (Entry.directory (Members.insert entries name e)).WellFormed := by
  cases h with
  | directory sorted isName below =>
      refine .directory (sorted.insert name e) (fun other hother => ?_) fun other hother => ?_
      · rcases Members.eq_or_mem_of_mem_insert hother with rfl | hother
        · exact hname
        · exact isName other hother
      · rcases Members.eq_or_mem_of_mem_insert hother with rfl | hother
        · exact he
        · exact below other hother

theorem put {e item : Entry} {names : List Name} (h : e.WellFormed)
    (hnames : ∀ name ∈ names, IsName name)
    (hitem : item.WellFormed) : (e.put names item).WellFormed := by
  induction names generalizing e with
  | nil => exact hitem
  | cons name names ih =>
      obtain ⟨hname, hnames⟩ := List.forall_mem_cons.1 hnames
      have hbelow : ((Members.find? e.entries name).getD (.directory [])).WellFormed := by
        cases hfind : Members.find? e.entries name with
        | none => exact nil
        | some below => exact (h.of_find? hfind).2
      exact h.entries.insert hname (ih hbelow hnames)

end WellFormed
end Entry

def Path.follow (names : List Name) (segment : Name) : List Name :=
  if isIdle segment then names
  else if segment = up then names.tail
  else segment :: names

theorem Path.foldl_follow_of_isName {segments : List Name} (h : ∀ s ∈ segments, IsName s)
    (names : List Name) :
    segments.foldl follow names = segments.reverse ++ names := by
  induction segments generalizing names with
  | nil => rfl
  | cons s segments ih =>
      obtain ⟨hs, h⟩ := List.forall_mem_cons.1 h
      rw [List.foldl_cons, ih h, follow, if_neg (Bool.eq_false_iff.1 hs.not_idle), if_neg hs.not_up,
        List.reverse_cons, List.append_assoc, List.singleton_append]

namespace Volume

variable {v : Volume}

def WellFormed (v : Volume) : Prop := v.top.WellFormed

/-- A volume stays well-formed when something is put into it. -/
theorem WellFormed.put {names : List Name} {e : Entry} (h : v.WellFormed)
    (hnames : ∀ name ∈ names, IsName name)
    (he : e.WellFormed) : (v.put names e).WellFormed :=
  (Entry.WellFormed.put h hnames he).entries

/-- A way down on which every name leads on from where the one before it has led. -/
def Leads (v : Volume) : Place → Prop
  | [] => True
  | (name, e) :: place => Members.find? (v.entryAt place).entries name = some e ∧ v.Leads place

namespace Leads

theorem nil : v.Leads [] := trivial

theorem descend {place place' : Place} {name : Name} (h : v.Leads place)
    (hdescend : v.descend place name = .ok place') :
    v.Leads place' := by
  rw [Volume.descend] at hdescend
  cases hfind : Members.find? (v.entryAt place).entries name with
  | none =>
      rw [hfind] at hdescend
      cases hdescend
  | some e =>
      rw [hfind] at hdescend
      cases hdescend
      exact ⟨hfind, h⟩

theorem step {place place' : Place} {segment : Name} (h : v.Leads place)
    (hstep : v.step place segment = .ok place') :
    v.Leads place' := by
  rw [Volume.step] at hstep
  split at hstep
  · cases hstep
  · split at hstep
    · cases hstep
      exact h
    · split at hstep
      · cases hstep
        cases place with
        | nil => exact h
        | cons e place => exact h.2
      · split at hstep
        · cases hstep
        · exact h.descend hstep

theorem wellFormed {place : Place} (h : v.Leads place) (hv : v.WellFormed) :
    (∀ e ∈ place, IsName e.1) ∧ (v.entryAt place).WellFormed := by
  induction place with
  | nil => exact ⟨fun e he => absurd he List.not_mem_nil, hv⟩
  | cons e place ih =>
      obtain ⟨hplace, hentry⟩ := ih h.2
      obtain ⟨hname, hbelow⟩ := hentry.of_find? h.1
      exact ⟨List.forall_mem_cons.2 ⟨hname, hplace⟩, hbelow⟩

theorem at? {place : Place} (h : v.Leads place) :
    v.top.at? (place.map Prod.fst).reverse = some (v.entryAt place) := by
  induction place with
  | nil => rfl
  | cons e place ih =>
      rw [List.map_cons, List.reverse_cons, Entry.at?_append, ih h.2, Option.bind_some,
        Entry.at?_cons, h.1]
      rfl

/-- The names of a way down lead along it again. -/
theorem foldlM_step {place : Place} (h : v.Leads place) (hv : v.WellFormed) :
    (place.map Prod.fst).reverse.foldlM v.step [] = .ok place := by
  induction place with
  | nil => rfl
  | cons e place ih =>
      obtain ⟨name, e⟩ := e
      have hname : IsName name := (h.wellFormed hv).1 _ List.mem_cons_self
      have hstep : v.step place name = .ok ((name, e) :: place) := by
        have hfind := h.1
        rw [Volume.step]
        cases hentry : v.entryAt place with
        | file content =>
            rw [hentry] at hfind
            cases hfind
        | directory entries =>
            dsimp only
            rw [if_neg (Bool.eq_false_iff.1 hname.not_idle), if_neg hname.not_up,
              if_neg (Nat.not_lt.2 hname.size_le), Volume.descend, hfind]
      rw [List.map_cons, List.reverse_cons, List.foldlM_append, ih h.2]
      exact (bind_eq_ok_iff (x := .ok place)).2 ⟨place, rfl, by rw [List.foldlM_cons, hstep]; rfl⟩

end Leads

theorem exists_leads_of_at? {names : List Name} {e : Entry} (h : v.top.at? names = some e) :
    ∃ place, v.Leads place ∧ (place.map Prod.fst).reverse = names ∧ v.entryAt place = e := by
  induction names using List.reverseRecOn generalizing e with
  | nil =>
      cases h
      exact ⟨[], .nil, rfl, rfl⟩
  | append_singleton names name ih =>
      rw [Entry.at?_append] at h
      obtain ⟨above, habove, h⟩ := Option.bind_eq_some_iff.1 h
      rw [Entry.at?_cons] at h
      obtain ⟨below, hfind, h⟩ := Option.bind_eq_some_iff.1 h
      cases h
      obtain ⟨place, hleads, rfl, rfl⟩ := ih habove
      exact ⟨(name, e) :: place, ⟨hfind, hleads⟩, by rw [List.map_cons, List.reverse_cons], rfl⟩

/-- What holds at the start and is kept by every step holds at the end. -/
theorem foldlM_inv {ε α β : Type} {P : α → Prop} {f : α → β → Except ε α}
    (hstep : ∀ a b a', P a → f a b = .ok a' → P a')
    {bs : List β} {a a' : α} (ha : P a) (h : bs.foldlM f a = .ok a') : P a' := by
  induction bs generalizing a with
  | nil =>
      cases h
      exact ha
  | cons b bs ih =>
      rw [List.foldlM_cons] at h
      obtain ⟨next, hnext, h⟩ := bind_eq_ok_iff.1 h
      exact ih (hstep a b next ha hnext) h

variable (v) in
def startOf (path : Path) : Except Fault Place :=
  if isAbsolute path then .ok [] else v.current.foldlM v.descend []

theorem locate_eq {path : Path} (hnul : 0 ∉ path) (hempty : path ≠ []) :
    v.locate path = v.startOf path >>= fun start => (segments path).foldlM v.step start >>=
      fun place =>
      .ok ((place.map Prod.fst).reverse, v.entryAt place) := by
  rw [locate, if_neg (mt List.contains_iff_mem.1 hnul), if_neg hempty, startOf]
  dsimp only
  split <;> rfl

theorem locate_eq_ok_iff {path : Path} {names : List Name} {e : Entry} :
    v.locate path = .ok (names, e) ↔
      0 ∉ path ∧ path ≠ [] ∧ ∃ start place, v.startOf path = .ok start ∧
        (segments path).foldlM v.step start = .ok place ∧ (place.map Prod.fst).reverse = names ∧
          v.entryAt place = e := by
  by_cases hnul : 0 ∈ path
  · rw [locate, if_pos (List.contains_iff_mem.2 hnul)]
    exact ⟨nofun, fun h => absurd hnul h.1⟩
  · by_cases hempty : path = []
    · rw [locate, if_neg (mt List.contains_iff_mem.1 hnul), if_pos hempty]
      exact ⟨nofun, fun h => absurd hempty h.2.1⟩
    · rw [locate_eq hnul hempty]
      simp only [bind_eq_ok_iff, Except.ok.injEq, Prod.mk.injEq, hnul, hempty, not_false_eq_true,
        ne_eq, true_and, exists_and_left]

theorem exists_place_of_locate {path : Path} {names : List Name} {e : Entry}
    (h : v.locate path = .ok (names, e)) :
    ∃ place, v.Leads place ∧ (place.map Prod.fst).reverse = names ∧ v.entryAt place = e := by
  obtain ⟨-, -, start, place, hstart, hplace, hnames, he⟩ := locate_eq_ok_iff.1 h
  have hleads : v.Leads start := by
    rw [startOf] at hstart
    split at hstart
    · cases hstart
      exact .nil
    · exact foldlM_inv (fun _ _ _ hp hd => hp.descend hd) .nil hstart
  exact ⟨place, foldlM_inv (fun _ _ _ hp hs => hp.step hs) hleads hplace, hnames, he⟩

theorem at?_of_locate {path : Path} {names : List Name} {e : Entry}
    (h : v.locate path = .ok (names, e)) :
    v.top.at? names = some e := by
  obtain ⟨place, hleads, rfl, rfl⟩ := exists_place_of_locate h
  exact hleads.at?

theorem foldlM_segments_absolute {names : List Name} (h : ∀ name ∈ names, IsName name) :
    (segments (absolute names)).foldlM v.step [] = names.foldlM v.step [] := by
  have htop : v.step [] [] = .ok [] := rfl
  rw [segments_absolute, List.foldlM_cons, htop]
  cases names with
  | nil => rfl
  | cons name names =>
      rw [segments_ofSegments (List.cons_ne_nil _ _) fun name hname => (h name hname).no_slash]
      rfl

/-- The names from the top to a place make up a path that leads there. -/
theorem locate_absolute_of_at? (hv : v.WellFormed) {names : List Name} {e : Entry}
    (h : v.top.at? names = some e) :
    v.locate (absolute names) = .ok (names, e) := by
  obtain ⟨place, hleads, rfl, rfl⟩ := exists_leads_of_at? h
  have hnames : ∀ name ∈ (place.map Prod.fst).reverse, IsName name := by
    intro name hname
    rw [List.mem_reverse, List.mem_map] at hname
    obtain ⟨entry, hentry, rfl⟩ := hname
    exact (hleads.wellFormed hv).1 entry hentry
  have hnul : 0 ∉ absolute (place.map Prod.fst).reverse := by
    rw [absolute, List.mem_cons, not_or]
    refine ⟨by decide, fun hmem => ?_⟩
    rcases mem_ofSegments hmem with hslash | ⟨name, hname, hmem⟩
    · exact absurd hslash (by decide)
    · exact (hnames name hname).no_nul hmem
  have hwalk : (segments (absolute (place.map Prod.fst).reverse)).foldlM v.step [] = .ok place := by
    rw [foldlM_segments_absolute hnames]
    exact hleads.foldlM_step hv
  have hstart : v.startOf (absolute (place.map Prod.fst).reverse) = .ok [] := by
    rw [startOf, isAbsolute_absolute, if_pos rfl]
  exact locate_eq_ok_iff.2 ⟨hnul, by simp [absolute], [], place, hstart, hwalk, rfl, rfl⟩

theorem map_fst_descend {place place' : Place} {name : Name}
    (h : v.descend place name = .ok place') :
    place'.map Prod.fst = name :: place.map Prod.fst := by
  rw [descend] at h
  split at h
  next =>
    cases h
    rfl
  next => cases h

theorem map_fst_step {place place' : Place} {segment : Name}
    (h : v.step place segment = .ok place') :
    place'.map Prod.fst = follow (place.map Prod.fst) segment := by
  rw [step] at h
  rw [follow]
  split at h
  next => cases h
  next =>
    split at h
    next hidle =>
      cases h
      rw [if_pos hidle]
    next hmoves =>
      rw [if_neg hmoves]
      split at h
      next hup =>
        cases h
        rw [if_pos hup, List.map_tail]
      next hdown =>
        rw [if_neg hdown]
        split at h
        next => cases h
        next => exact map_fst_descend h

theorem map_fst_foldlM {f : Place → Name → Except Fault Place} {g : List Name → Name → List Name}
    (hf : ∀ place s place', f place s = .ok place' → place'.map Prod.fst = g (place.map Prod.fst) s)
    {segments : List Name} {place place' : Place} (h : segments.foldlM f place = .ok place') :
    place'.map Prod.fst = segments.foldl g (place.map Prod.fst) := by
  induction segments generalizing place with
  | nil =>
      cases h
      rfl
  | cons s segments ih =>
      rw [List.foldlM_cons] at h
      obtain ⟨next, hnext, h⟩ := bind_eq_ok_iff.1 h
      rw [ih h, List.foldl_cons, hf place s next hnext]

/-- A path that leads somewhere leads where its text says. -/
theorem names_of_locate {path : Path} {names : List Name} {e : Entry}
    (h : v.locate path = .ok (names, e)) :
    names = ((segments path).foldl follow
      (if isAbsolute path then [] else v.current.reverse)).reverse := by
  obtain ⟨-, -, start, place, hstart, hplace, rfl, -⟩ := locate_eq_ok_iff.1 h
  have hnames : start.map Prod.fst = if isAbsolute path then [] else v.current.reverse := by
    rw [startOf] at hstart
    split at hstart
    next habsolute =>
      cases hstart
      rw [if_pos habsolute, List.map_nil]
    next hrelative =>
      rw [if_neg hrelative, map_fst_foldlM (g := fun names name => name :: names)
          (fun _ _ _ => map_fst_descend) hstart,
        List.foldl_flip_cons_eq_append', List.map_nil, List.append_nil]
  rw [map_fst_foldlM (fun _ _ _ => map_fst_step) hplace, hnames]

/-- A path of names leads to the place that they lead to, and nowhere else. -/
theorem locate_absolute_eq_ok_iff (hv : v.WellFormed) {names found : List Name} {e : Entry}
    (hnames : ∀ name ∈ names, IsName name) :
    v.locate (absolute names) = .ok (found, e) ↔ found = names ∧ v.top.at? names = some e := by
  constructor
  · intro h
    have hfound : found = names := by
      rw [names_of_locate h, isAbsolute_absolute, if_pos rfl, segments_absolute, List.foldl_cons]
      cases names with
      | nil => rfl
      | cons name names =>
          rw [segments_ofSegments (List.cons_ne_nil _ _) fun n hn => (hnames n hn).no_slash,
            foldl_follow_of_isName hnames]
          exact (congrArg List.reverse (List.append_nil _)).trans (List.reverse_reverse _)
    refine ⟨hfound, ?_⟩
    rw [← hfound]
    exact at?_of_locate h
  · rintro ⟨rfl, h⟩
    exact locate_absolute_of_at? hv h

/-! ### By a path as a whole -/

theorem find_eq_ok_iff {path : Path} {e : Entry} :
    v.find path = .ok e ↔ path.length < pathLimit ∧ ∃ names, v.locate path = .ok (names, e) := by
  rw [find]
  split
  next hlong => exact ⟨nofun, fun h => absurd h.1 (Nat.not_lt.2 hlong)⟩
  next hshort =>
    rw [and_iff_right (Nat.not_le.1 hshort)]
    cases hlocate : v.locate path with
    | error fault => simp [Except.map]
    | ok found => simp [Except.map, Prod.ext_iff]

/-- The system finds what is at a place if its path is not too long. -/
theorem find_absolute_iff (hv : v.WellFormed) {names : List Name} {e : Entry}
    (hnames : ∀ name ∈ names, IsName name) :
    v.find (absolute names) = .ok e ↔
      (absolute names).length < pathLimit ∧ v.top.at? names = some e := by
  simp only [find_eq_ok_iff, locate_absolute_eq_ok_iff hv hnames, exists_eq_left]

theorem isFile_eq_true_iff {path : Path} :
    v.isFile path = true ↔ ∃ content, v.find path = .ok (.file content) := by
  rw [isFile]
  cases v.find path with
  | error fault => simp
  | ok e => cases e <;> simp [Entry.isFile]

/-- The path of a place is that of a file if there is one and the path is not too long. -/
theorem isFile_absolute (hv : v.WellFormed) {names : List Name} {e : Entry}
    (h : v.top.at? names = some e) :
    v.isFile (absolute names) = (e.isFile && (absolute names).length < pathLimit) := by
  have hfile := @isFile_eq_true_iff v (absolute names)
  simp only [find_absolute_iff hv (hv.isName_of_at? h), h, Option.some.injEq] at hfile
  rw [Bool.eq_iff_iff, hfile]
  cases e <;> simp [Entry.isFile]

/-- A file with the bytes of a text has that text. -/
theorem readText_of_locate {path : Path} {text : String} {names : List Name}
    (h : v.locate path = .ok (names, .file text.toUTF8)) (hsize : path.length < pathLimit) :
    v.readText path = .ok text := by
  have hfind : v.find path = .ok (.file text.toUTF8) := find_eq_ok_iff.2 ⟨hsize, names, h⟩
  have htext : String.fromUTF8? text.toUTF8 = some text := dif_pos text.isValidUTF8
  refine bind_eq_ok_iff.2 ⟨_, hfind, ?_⟩
  dsimp only
  rw [htext]
  rfl

end Volume
end Arborist
