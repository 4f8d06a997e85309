import Arborist.Proofs.Volumes

/-!
# Changes to files

Where a path leads is a matter of its text alone, if it leads anywhere (`Volume.names_of_locate`).
So when some files of a volume are changed, added or removed, only the paths that lead to these
files are answered differently: `Volume.SameBut.readText_eq`.
-/

namespace Arborist

open Arborist.Path

def Entry.content? : Entry → Option ByteArray
  | .file content => some content
  | .directory _ => none

theorem Entry.find?_put_cons (e : Entry) (name : Name) (names : List Name) (item : Entry)
    (other : Name) :
    Members.find? (e.put (name :: names) item).entries other =
      if other = name then
        some (((Members.find? e.entries name).getD (.directory [])).put names item)
      else Members.find? e.entries other := by
  rw [put]
  exact Members.find?_insert _ _ _ _

theorem Entry.at?_put_self (e : Entry) (names : List Name) (item : Entry) :
    (e.put names item).at? names = some item := by
  induction names generalizing e with
  | nil => rfl
  | cons name names ih => rw [at?_cons, find?_put_cons, if_pos rfl, Option.bind_some, ih]

/-- A file put into a directory, where no directory was, is felt at its own place only. -/
theorem Entry.content?_at?_put {e : Entry} {above : List Name} {name : Name}
    {entries : List (Name × Entry)} (hdirectory : e.at? above = some (.directory entries))
    (hfree : ∀ below, e.at? (above ++ [name]) ≠ some (.directory below)) (content : ByteArray)
    {names : List Name} (hnames : names ≠ above ++ [name]) :
    ((e.put (above ++ [name]) (.file content)).at? names).map content? =
      (e.at? names).map content? := by
  induction above generalizing e names with
  | nil =>
      cases hdirectory
      cases names with
      | nil => rfl
      | cons n names =>
          rw [List.nil_append, at?_cons, at?_cons, find?_put_cons]
          split
          next heq =>
            subst n
            -- Below a file there is nothing, neither below the new one nor below one that was
            -- there.
            cases names with
            | nil => exact absurd rfl hnames
            | cons n names =>
                cases hbelow : Members.find? (Entry.directory entries).entries name with
                | none => rfl
                | some below =>
                    cases below with
                    | file content' => rfl
                    | directory below =>
                        refine absurd ?_ (hfree below)
                        rw [List.nil_append, at?_cons, hbelow]
                        rfl
          next => rfl
  | cons a above ih =>
      rw [at?_cons] at hdirectory
      obtain ⟨below, hbelow, hdirectory⟩ := Option.bind_eq_some_iff.1 hdirectory
      have hfree' : ∀ entries, below.at? (above ++ [name]) ≠ some (.directory entries) := by
        intro entries h
        refine hfree entries ?_
        rw [List.cons_append, at?_cons, hbelow, Option.bind_some, h]
      cases names with
      | nil =>
          cases e with
          | file content' => cases hbelow
          | directory entries' => rfl
      | cons n names =>
          rw [List.cons_append, at?_cons, at?_cons, find?_put_cons, hbelow, Option.getD_some]
          split
          next heq =>
            subst n
            rw [hbelow, Option.bind_some, Option.bind_some]
            exact ih hdirectory hfree' fun h => hnames (by rw [h, List.cons_append])
          next => rfl

namespace Volume

variable {v v' : Volume}

/-- The volumes differ in nothing but files at the places in `changed`, where neither has a
directory. -/
structure SameBut (changed : List (List Name)) (v v' : Volume) : Prop where
  current : v'.current = v.current
  content : ∀ names, names ∉ changed →
    (v'.top.at? names).map Entry.content? = (v.top.at? names).map Entry.content?
  noDirectory : ∀ names ∈ changed, ∀ entries,
    v.top.at? names ≠ some (.directory entries) ∧ v'.top.at? names ≠ some (.directory entries)

theorem exists_directory_of_descend {place place' : Place} {name : Name}
    (h : v.descend place name = .ok place') :
    ∃ entries, v.entryAt place = .directory entries := by
  rw [descend] at h
  cases hentry : v.entryAt place with
  | file content =>
      rw [hentry] at h
      cases h
  | directory entries => exact ⟨entries, rfl⟩

theorem exists_directory_of_step {place place' : Place} {segment : Name}
    (h : v.step place segment = .ok place') :
    ∃ entries, v.entryAt place = .directory entries := by
  rw [step] at h
  cases hentry : v.entryAt place with
  | file content =>
      rw [hentry] at h
      cases h
  | directory entries => exact ⟨entries, rfl⟩

namespace SameBut

variable {changed : List (List Name)}

theorem symm (h : SameBut changed v v') : SameBut changed v' v :=
  ⟨h.current.symm, fun names hnames => (h.content names hnames).symm, fun names hnames entries =>
    (h.noDirectory names hnames entries).symm⟩

theorem exists_directory (h : SameBut changed v v') {names : List Name}
    {entries : List (Name × Entry)} (hat : v.top.at? names = some (.directory entries)) :
    ∃ entries', v'.top.at? names = some (.directory entries') := by
  have hnames : names ∉ changed := fun hmem => (h.noDirectory names hmem entries).1 hat
  have hcontent := h.content names hnames
  rw [hat] at hcontent
  obtain ⟨e, he, hdirectory⟩ := Option.map_eq_some_iff.1 hcontent
  cases e with
  | file content => cases hdirectory
  | directory entries' => exact ⟨entries', he⟩

theorem trans {changed' : List (List Name)} {v'' : Volume} (h : SameBut changed v v')
    (h' : SameBut changed' v' v'') :
    SameBut (changed ++ changed') v v'' := by
  refine ⟨h'.current.trans h.current, fun names hnames => ?_, fun names hnames entries =>
    ⟨fun hat => ?_, fun hat => ?_⟩⟩
  · rw [List.mem_append, not_or] at hnames
    rw [h'.content names hnames.2, h.content names hnames.1]
  · rcases List.mem_append.1 hnames with hnames | hnames
    · exact (h.noDirectory names hnames entries).1 hat
    · obtain ⟨entries', hat'⟩ := h.exists_directory hat
      exact (h'.noDirectory names hnames entries').1 hat'
  · rcases List.mem_append.1 hnames with hnames | hnames
    · obtain ⟨entries', hat'⟩ := h'.symm.exists_directory hat
      exact (h.noDirectory names hnames entries').2 hat'
    · exact (h'.noDirectory names hnames entries).2 hat

/-- A file is written into a directory, over another one or as a new one. -/
theorem put (above : List Name) (name : Name) {entries : List (Name × Entry)}
    (hdirectory : v.top.at? above = some (.directory entries))
    (hfree : ∀ below, v.top.at? (above ++ [name]) ≠ some (.directory below)) (content : ByteArray) :
    SameBut [above ++ [name]] v (v.put (above ++ [name]) (.file content)) := by
  have htop : (v.put (above ++ [name]) (.file content)).top =
      v.top.put (above ++ [name]) (.file content) := by
    cases above <;> rfl
  refine ⟨rfl, fun names hnames => ?_, fun names hnames below => ?_⟩
  · rw [htop]
    exact Entry.content?_at?_put hdirectory hfree content fun h => hnames (List.mem_singleton.2 h)
  · rw [List.mem_singleton] at hnames
    subst names
    rw [htop, Entry.at?_put_self]
    exact ⟨hfree below, nofun⟩

/-- A way down in each of the two volumes, by the same names.  A step on the left can be made on the
right as well, if there is something (`Alongside.step`). -/
structure Alongside (v v' : Volume) (place place' : Place) : Prop where
  left : v.Leads place
  right : v'.Leads place'
  names : place'.map Prod.fst = place.map Prod.fst

theorem Alongside.exists_directory {place place' : Place} (ha : Alongside v v' place place')
    (h : SameBut changed v v')
    {entries : List (Name × Entry)} (hentry : v.entryAt place = .directory entries) :
    ∃ entries', v'.entryAt place' = .directory entries' := by
  have hat := ha.left.at?
  rw [hentry] at hat
  obtain ⟨entries', hat'⟩ := h.exists_directory hat
  rw [← ha.names, ha.right.at?] at hat'
  exact ⟨entries', Option.some.inj hat'⟩

theorem descend {place place' next : Place} {name : Name} (ha : Alongside v v' place place')
    (hdescend : v.descend place name = .ok next) {e : Entry}
    (hnext : v'.top.at? (next.map Prod.fst).reverse = some e) :
    ∃ next', v'.descend place' name = .ok next' ∧ Alongside v v' next next' := by
  have hfind : Members.find? (v'.entryAt place').entries name = some e := by
    rw [map_fst_descend hdescend, List.reverse_cons, Entry.at?_append, ← ha.names, ha.right.at?,
      Option.bind_some, Entry.at?_cons] at hnext
    obtain ⟨below, hfind, hbelow⟩ := Option.bind_eq_some_iff.1 hnext
    rw [hfind, ← hbelow, Entry.at?_nil]
  have hdescend' : v'.descend place' name = .ok ((name, e) :: place') :=
    by rw [Volume.descend, hfind]
  refine ⟨_, hdescend', ha.left.descend hdescend, ha.right.descend hdescend', ?_⟩
  rw [map_fst_descend hdescend, List.map_cons, ha.names]

theorem step {place place' next : Place} {segment : Name} (h : SameBut changed v v')
    (ha : Alongside v v' place place') (hstep : v.step place segment = .ok next) {e : Entry}
    (hnext : v'.top.at? (next.map Prod.fst).reverse = some e) :
    ∃ next', v'.step place' segment = .ok next' ∧ Alongside v v' next next' := by
  obtain ⟨entries, hentry⟩ := exists_directory_of_step hstep
  obtain ⟨entries', hentry'⟩ := ha.exists_directory h hentry
  have hstep' : ∃ next', v'.step place' segment = .ok next' := by
    rw [Volume.step, hentry] at hstep
    rw [Volume.step, hentry']
    dsimp only at hstep ⊢
    split at hstep
    next hidle => exact ⟨place', if_pos hidle⟩
    next hmoves =>
      rw [if_neg hmoves]
      split at hstep
      next hup => exact ⟨place'.tail, if_pos hup⟩
      next hdown =>
        rw [if_neg hdown]
        split at hstep
        next => cases hstep
        next hshort =>
          rw [if_neg hshort]
          obtain ⟨next', hnext', -⟩ := descend ha hstep hnext
          exact ⟨next', hnext'⟩
  obtain ⟨next', hstep'⟩ := hstep'
  refine ⟨next', hstep', ha.left.step hstep, ha.right.step hstep', ?_⟩
  rw [map_fst_step hstep', map_fst_step hstep, ha.names]

/-- Walks are the same as long as they end at something. -/
theorem foldlM {f g : Place → Name → Except Fault Place} (h : SameBut changed v v')
    (hdirectory : ∀ place s next, f place s = .ok next → ∃ entries,
      v.entryAt place = .directory entries)
    (hleads : ∀ place s next, v.Leads place → f place s = .ok next → v.Leads next)
    (hstep : ∀ place place' s next e, Alongside v v' place place' → f place s = .ok next →
      v'.top.at? (next.map Prod.fst).reverse = some e → ∃ next', g place' s = .ok next' ∧
        Alongside v v' next next')
    {segments : List Name} {place place' last : Place} (ha : Alongside v v' place place')
    (hwalk : segments.foldlM f place = .ok last) {e : Entry}
    (hlast : v'.top.at? (last.map Prod.fst).reverse = some e) :
    ∃ last', segments.foldlM g place' = .ok last' ∧ Alongside v v' last last' := by
  induction segments generalizing place place' with
  | nil =>
      cases hwalk
      exact ⟨place', rfl, ha⟩
  | cons s segments ih =>
      rw [List.foldlM_cons] at hwalk
      obtain ⟨next, hnext, hwalk⟩ := bind_eq_ok_iff.1 hwalk
      -- A place on the way is a directory and so the same in both volumes; the last one is given.
      have hat : ∃ e, v'.top.at? (next.map Prod.fst).reverse = some e := by
        cases segments with
        | nil =>
            cases hwalk
            exact ⟨e, hlast⟩
        | cons s' segments =>
            rw [List.foldlM_cons] at hwalk
            obtain ⟨after, hafter, -⟩ := bind_eq_ok_iff.1 hwalk
            obtain ⟨entries, hentry⟩ := hdirectory next s' after hafter
            have hat := (hleads place s next ha.left hnext).at?
            rw [hentry] at hat
            obtain ⟨entries', hat'⟩ := h.exists_directory hat
            exact ⟨_, hat'⟩
      obtain ⟨e', hat⟩ := hat
      obtain ⟨next', hnext', ha'⟩ := hstep place place' s next e' ha hnext hat
      obtain ⟨last', hlast', ha''⟩ := ih ha' hwalk
      exact ⟨last', by rw [List.foldlM_cons, hnext']; exact hlast', ha''⟩

/-- A path leads to the same place if there is still something. -/
theorem locate (h : SameBut changed v v') {path : Path} {names : List Name} {e e' : Entry}
    (hlocate : v.locate path = .ok (names, e)) (hat : v'.top.at? names = some e') :
    v'.locate path = .ok (names, e') := by
  obtain ⟨hnul, hempty, start, place, hstart, hplace, rfl, rfl⟩ := locate_eq_ok_iff.1 hlocate
  have hstart' : ∃ start', v'.startOf path = .ok start' ∧ Alongside v v' start start' := by
    rw [startOf] at hstart ⊢
    split at hstart
    next habsolute =>
      cases hstart
      exact ⟨[], by rw [if_pos habsolute], .nil, .nil, rfl⟩
    next hrelative =>
      rw [if_neg hrelative, h.current]
      obtain ⟨s, rest, hsegments⟩ := List.exists_cons_of_ne_nil (segments_ne_nil path)
      rw [hsegments, List.foldlM_cons] at hplace
      obtain ⟨next, hnext, -⟩ := bind_eq_ok_iff.1 hplace
      obtain ⟨entries, hentry⟩ := exists_directory_of_step hnext
      have hat := (foldlM_inv (P := v.Leads) (fun _ _ _ hp hd => hp.descend hd) .nil hstart).at?
      rw [hentry] at hat
      obtain ⟨entries', hat'⟩ := h.exists_directory hat
      exact h.foldlM (f := v.descend) (g := v'.descend) (fun _ _ _ => exists_directory_of_descend)
        (fun _ _ _ hp hd => hp.descend hd) (fun _ _ _ _ _ ha hd hn => descend ha hd hn)
        ⟨.nil, .nil, rfl⟩ hstart hat'
  obtain ⟨start', hstart', ha⟩ := hstart'
  obtain ⟨place', hplace', ha'⟩ := h.foldlM (f := v.step) (g := v'.step)
    (fun _ _ _ => exists_directory_of_step) (fun _ _ _ hp hs => hp.step hs)
    (fun _ _ _ _ _ ha hs hn => h.step ha hs hn) ha hplace hat
  refine locate_eq_ok_iff.2 ⟨hnul, hempty, start', place', hstart', hplace', by rw [ha'.names], ?_⟩
  rw [← ha'.names, ha'.right.at?] at hat
  exact Option.some.inj hat

end SameBut
end Volume
end Arborist
