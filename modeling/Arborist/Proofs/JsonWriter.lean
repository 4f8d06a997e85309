import Arborist.Json.Writer
import Arborist.Proofs.JsonGrammar
import Mathlib.Data.List.Forall2

/-!
# Written values are JSON texts

`written_of_render` says that the text of a value is a way to write it, whatever the layout puts
between its parts, as long as that is blank.  Objects are written in the order of their members,
which need not be that of the names, and a name may be written more than once: what is written is
the value with its members in order, `Json.sorted`.

Doubles are left out: all numbers are integers that 64 bits hold.
-/

namespace Arborist.Json

/-! ### Strings -/

theorem hexDigit_hexDigit {n : Nat} (h : n < 16) : HexDigit n (hexDigit n) := by
  have hall : ∀ k < 16, HexDigit k (hexDigit k) := by decide
  exact hall n h

theorem Chars.cons_escapeChar {cs text : List Char} (c : Char) (h : Chars cs text) :
    Chars (c :: cs) (escapeChar c ++ text) := by
  by_cases hc : c ∈ ['"', '\\', '\x08', '\x0c', '\n', '\r', '\t']
  · simp only [List.mem_cons, List.not_mem_nil, or_false] at hc
    rcases hc with rfl | rfl | rfl | rfl | rfl | rfl | rfl
    all_goals exact .escape (.letter (by decide)) h
  · simp only [List.mem_cons, List.not_mem_nil, or_false, not_or] at hc
    obtain ⟨hquote, hslash, hback, hfeed, hline, hreturn, htab⟩ := hc
    rw [escapeChar, if_neg hquote, if_neg hslash, if_neg hback, if_neg hfeed, if_neg hline,
      if_neg hreturn, if_neg htab]
    split
    next =>
      have hzero : HexDigit 0 '0' := by decide
      have hfour := FourHex.digits hzero hzero (hexDigit_hexDigit (n := c.toNat / 16) (by omega))
        (hexDigit_hexDigit (n := c.toNat % 16) (by omega))
      have hvalue : ((0 * 16 + 0) * 16 + c.toNat / 16) * 16 + c.toNat % 16 = c.toNat := by omega
      rw [hvalue] at hfour
      exact .escape (.code (.single hfour)) h
    next hcontrol =>
      exact .raw hquote hslash (Nat.not_lt.1 hcontrol) h

theorem chars_flatMap_escapeChar (cs : List Char) : Chars cs (cs.flatMap escapeChar) := by
  induction cs with
  | nil => exact .nil
  | cons c cs ih =>
      rw [List.flatMap_cons]
      exact ih.cons_escapeChar c

theorem quoted_quote (s : String) : Quoted s (quote s).toList := by
  have hquotes := Quoted.quotes (s := s) (chars_flatMap_escapeChar s.toList)
  simpa [quote] using hquotes

/-! ### Values in order -/

/-- The value with the members of its objects in order, at every depth.  Of several with one name
the last one stays. -/
def sorted (v : Json) : Json :=
  Branching.fold (fun v parts => match v with
    | .array _ => .array parts
    | .object members => .object (Members.ofList ((members.map Prod.fst).zip parts))
    | v => v) v

theorem sorted_array (items : List Json) : sorted (.array items) = .array (items.map sorted) := by
  rw [sorted, Branching.fold_eq]
  rfl

theorem sorted_object (members : List (String × Json)) :
    sorted (.object members) =
      .object (Members.ofList (members.map fun m => (m.1, m.2.sorted))) := by
  have hzip : (members.map Prod.fst).zip ((members.map Prod.snd).map sorted) =
      members.map fun m => (m.1, m.2.sorted) := by
    rw [List.map_map, List.zip_map']
    rfl
  rw [sorted, Branching.fold_eq, ← hzip]
  rfl

theorem sorted_null : sorted .null = .null := Branching.fold_eq _ _

theorem sorted_bool (b : Bool) : sorted (.bool b) = .bool b := Branching.fold_eq _ _

theorem sorted_number (n : Number) : sorted (.number n) = .number n := Branching.fold_eq _ _

theorem sorted_string (s : String) : sorted (.string s) = .string s := Branching.fold_eq _ _

/-- Members that are in order are left as they are. -/
theorem WellFormed.sorted_eq {v : Json} (h : v.WellFormed) : v.sorted = v := by
  induction h with
  | null => exact sorted_null
  | bool b => exact sorted_bool b
  | number n => exact sorted_number n
  | string s => exact sorted_string s
  | array _ ih =>
      rw [sorted_array, List.map_congr_left ih, List.map_id']
  | @object members hsorted _ ih =>
      have hmap : (members.map fun m => (m.1, m.2.sorted)) = members := by
        rw [List.map_congr_left fun m hm => by rw [ih m hm], List.map_id']
      rw [sorted_object, hmap, Members.ofList_eq_of_perm (.refl _) hsorted]

inductive Integral : Json → Prop
  | null : Integral .null
  | bool (b : Bool) : Integral (.bool b)
  | number {n : Int} : -2 ^ 63 ≤ n → n < 2 ^ 64 → Integral (.number (.integer n))
  | string (s : String) : Integral (.string s)
  | array {items : List Json} : (∀ v ∈ items, Integral v) → Integral (.array items)
  | object {members : List (String × Json)} : (∀ m ∈ members, Integral m.2) →
      Integral (.object members)

/-! ### Layouts -/

/-- A layout that puts blanks between the parts of a value and around colons, and nothing else. -/
structure TextLayout.Plain (layout : TextLayout) : Prop where
  separator : ∀ depth, Blank (layout.separator depth).toList
  colon : ∃ gap, Blank gap ∧ layout.colon.toList = ':' :: gap

theorem TextLayout.plain_indented : TextLayout.indented.Plain where
  separator depth := by
    intro c hc
    simp only [TextLayout.indented, String.toList_append, String.toList_ofList, List.mem_append,
      List.mem_replicate] at hc
    rcases hc with hc | ⟨-, rfl⟩
    · obtain rfl : c = '\n' := by simpa using hc
      rfl
    · rfl
  colon := ⟨[' '], by decide, rfl⟩

/-! ### Writing -/

def write (layout : TextLayout) (p : Placed) (out : String) : String :=
  @Branching.visit _ (placedBranching layout) _ (writing layout) p out

def writeAll (layout : TextLayout) (ps : List Placed) (out : String) : String :=
  @Branching.visitAll _ (placedBranching layout) _ (writing layout) ps out

theorem writeAll_cons (layout : TextLayout) (p : Placed) (ps : List Placed) (out : String) :
    writeAll layout (p :: ps) out = writeAll layout ps (write layout p out) := rfl

theorem write_eq (layout : TextLayout) (p : Placed) (out : String) :
    write layout p out = writeAll layout (p.parts layout) (out ++ p.lead ++ p.opening) ++
      p.closing layout := by
  rw [write, @Branching.visit_eq _ (placedBranching layout)]
  rfl

theorem render_eq_write (layout : TextLayout) (v : Json) :
    render layout v = write layout ⟨"", 0, v⟩ "" :=
  @Branching.traverse_eq_visit _ (placedBranching layout) _ _ _ _

/-- `p` is written as its lead and a text of its value, whatever stands before. -/
def Writes (layout : TextLayout) (p : Placed) : Prop :=
  ∀ out, ∃ body, Written p.value.sorted body ∧
    (write layout p out).toList = out.toList ++ (p.lead.toList ++ body)

/-- The `entries` of a container in a row, each with what stands in front of it apart from the
comma. -/
def Placed.row (depth : Nat) (first : Nat) (entries : List (String × Json)) : List Placed :=
  (entries.zipIdx first).map fun (e, i) => ⟨comma i ++ e.1, depth, e.2⟩

theorem Placed.row_cons (depth first : Nat) (e : String × Json) (entries : List (String × Json)) :
    row depth first (e :: entries) = ⟨comma first ++ e.1, depth, e.2⟩ :: row depth
      (first + 1) entries := rfl

def EntryText (e : String × Json) (text : List Char) : Prop :=
  ∃ body, Written e.2.sorted body ∧ text = e.1.toList ++ body

theorem exists_entryText {layout : TextLayout} {depth first : Nat} {e : String × Json}
    (h : Writes layout ⟨Placed.comma first ++ e.1, depth, e.2⟩) (out : String) :
    ∃ text, EntryText e text ∧
      (write layout ⟨Placed.comma first ++ e.1, depth, e.2⟩ out).toList =
        out.toList ++ ((Placed.comma first).toList ++ text) := by
  obtain ⟨body, hbody, htext⟩ := h out
  refine ⟨e.1.toList ++ body, ⟨body, hbody, rfl⟩, ?_⟩
  rw [htext, String.toList_append, List.append_assoc]

/-- Behind the first entry of a row every other one follows a comma. -/
theorem exists_texts_of_row {layout : TextLayout} {depth first : Nat}
    {entries : List (String × Json)}
    (h : ∀ p ∈ Placed.row depth (first + 1) entries, Writes layout p) (out : String) :
    ∃ texts, List.Forall₂ EntryText entries texts ∧
      (writeAll layout (Placed.row depth (first + 1) entries) out).toList =
        out.toList ++ texts.flatMap (',' :: ·) := by
  induction entries generalizing first out with
  | nil => exact ⟨[], .nil, (List.append_nil _).symm⟩
  | cons e entries ih =>
      rw [Placed.row_cons, List.forall_mem_cons] at h
      obtain ⟨text, he, htext⟩ := exists_entryText h.1 out
      obtain ⟨texts, hentries, htexts⟩ :=
        ih h.2 (write layout ⟨Placed.comma (first + 1) ++ e.1, depth, e.2⟩ out)
      refine ⟨text :: texts, .cons he hentries, ?_⟩
      rw [Placed.row_cons, writeAll_cons, htexts, htext]
      simp [Placed.comma]

/-- A row that is not empty, with a comma behind every entry but the last one. -/
theorem exists_commas_of_row {layout : TextLayout} {depth : Nat} {entries : List (String × Json)}
    (hne : entries ≠ []) (h : ∀ p ∈ Placed.row depth 0 entries, Writes layout p) (out : String) :
    ∃ texts last, List.Forall₂ EntryText entries (texts ++ [last]) ∧
      (writeAll layout (Placed.row depth 0 entries) out).toList =
        out.toList ++ (commas texts ++ last) := by
  have hcommas : ∀ (texts : List (List Char)) (first : List Char),
      ∃ init last, first :: texts = init ++ [last] ∧
      first ++ texts.flatMap (',' :: ·) = commas init ++ last := by
    intro texts
    induction texts with
    | nil => intro first; exact ⟨[], first, rfl, by simp [commas]⟩
    | cons text texts ih =>
        intro first
        obtain ⟨init, last, heq, htexts⟩ := ih text
        refine ⟨first :: init, last, by rw [heq, List.cons_append], ?_⟩
        rw [List.flatMap_cons, List.cons_append, htexts]
        simp [commas]
  obtain ⟨e, entries, rfl⟩ := List.exists_cons_of_ne_nil hne
  rw [Placed.row_cons, List.forall_mem_cons] at h
  obtain ⟨first, he, hfirst⟩ := exists_entryText h.1 out
  obtain ⟨rest, hentries, hrest⟩ :=
    exists_texts_of_row h.2 (write layout ⟨Placed.comma 0 ++ e.1, depth, e.2⟩ out)
  obtain ⟨texts, last, heq, htexts⟩ := hcommas rest first
  refine ⟨texts, last, heq ▸ .cons he hentries, ?_⟩
  rw [Placed.row_cons, writeAll_cons, hrest, hfirst, ← htexts]
  simp [Placed.comma]

/-! ### Containers -/

theorem Placed.parts_array (layout : TextLayout) (lead : String) (depth : Nat) (items : List Json) :
    parts layout ⟨lead, depth, .array items⟩ =
      row (depth + 1) 0 (items.map fun v => (layout.separator (depth + 1), v)) := by
  simp only [parts, row, List.zipIdx_map, List.map_map]
  rfl

theorem Placed.parts_object (layout : TextLayout) (lead : String) (depth : Nat)
    (members : List (String × Json)) :
    parts layout ⟨lead, depth, .object members⟩ =
      row (depth + 1) 0 (members.map fun m =>
        (layout.separator (depth + 1) ++ quote m.1 ++ layout.colon, m.2)) := by
  simp only [parts, row, List.zipIdx_map, List.map_map]
  refine List.map_congr_left fun e _ => ?_
  simp [String.append_assoc]

/-- An item with nothing behind it. -/
theorem exists_itemText {separator : String} (h : Blank separator.toList) {v : Json}
    {text : List Char} (htext : EntryText (separator, v) text) :
    ∃ i : ItemText, i.value = v.sorted ∧ (Written i.value i.text ∧ i.after = []) ∧
      i.padded = text := by
  obtain ⟨body, hbody, rfl⟩ := htext
  exact ⟨⟨separator.toList, v.sorted, body, [], h, blank_nil⟩, rfl, ⟨hbody, rfl⟩,
    by simp [ItemText.padded]⟩

/-- A member with nothing behind it. -/
theorem exists_memberText {layout : TextLayout} (h : layout.Plain) {depth : Nat} {m : String × Json}
    {text : List Char}
    (htext : EntryText (layout.separator depth ++ quote m.1 ++ layout.colon, m.2) text) :
    ∃ t : MemberText, t.member = (m.1, m.2.sorted) ∧
      (Written t.item.value t.item.text ∧ t.item.after = []) ∧
      t.padded = text := by
  obtain ⟨body, hbody, rfl⟩ := htext
  obtain ⟨gap, hgap, hcolon⟩ := h.colon
  refine ⟨⟨⟨(layout.separator depth).toList, m.1, (quote m.1).toList, [], h.separator depth,
    quoted_quote m.1, blank_nil⟩,
    ⟨gap, m.2.sorted, body, [], hgap, blank_nil⟩⟩, rfl, ⟨hbody, rfl⟩, ?_⟩
  simp [MemberText.padded, NameText.padded, ItemText.padded, hcolon]

/-- One thing for every entry of a list that another list goes along with. -/
theorem exists_forall_of_forall₂ {α β γ δ : Type} {R : α → β → Prop} {P : γ → Prop} {f : α → δ}
    {g : γ → δ} {k : γ → β} (h : ∀ a b, R a b → ∃ c, g c = f a ∧ P c ∧ k c = b) {as : List α}
    {bs : List β} (hrel : List.Forall₂ R as bs) :
    ∃ cs : List γ, cs.map g = as.map f ∧ (∀ c ∈ cs, P c) ∧ cs.map k = bs := by
  induction hrel with
  | nil => exact ⟨[], rfl, fun _ hc => absurd hc List.not_mem_nil, rfl⟩
  | cons hab _ ih =>
      obtain ⟨c, hg, hP, hk⟩ := h _ _ hab
      obtain ⟨cs, hgs, hPs, hks⟩ := ih
      refine ⟨c :: cs, ?_, List.forall_mem_cons.2 ⟨hP, hPs⟩, ?_⟩
      · rw [List.map_cons, List.map_cons, hg, hgs]
      · rw [List.map_cons, hk, hks]

/-- The last one of some things apart from the others. -/
theorem exists_append_singleton_of_map {α β : Type} {f : α → β} {as : List α} {bs : List β} {b : β}
    (h : as.map f = bs ++ [b]) :
    ∃ init last, as = init ++ [last] ∧ init.map f = bs ∧ f last = b := by
  obtain ⟨init, rest, rfl, hinit, hrest⟩ := List.map_eq_append_iff.1 h
  obtain ⟨last, rfl, hlast⟩ := List.map_eq_singleton_iff.1 hrest
  exact ⟨init, last, rfl, hinit, hlast⟩

/-- Texts of items with commas between them and blanks around them, in brackets. -/
theorem written_array_of_texts {separator : String} (hseparator : Blank separator.toList)
    {close : List Char}
    (hclose : Blank close) {items : List Json} {texts : List (List Char)} {last : List Char}
    (h : List.Forall₂ EntryText (items.map fun v => (separator, v)) (texts ++ [last])) :
    Written (.array (items.map sorted)) ('[' :: (commas texts ++ (last ++ (close ++ [']'])))) := by
  rw [List.forall₂_map_left_iff] at h
  obtain ⟨all, hvalues, hwritten, hpadded⟩ :=
    exists_forall_of_forall₂ (f := sorted) (g := ItemText.value)
    (k := ItemText.padded) (fun v text hv => exists_itemText hseparator hv) h
  obtain ⟨init, i, rfl, rfl, rfl⟩ := exists_append_singleton_of_map hpadded
  obtain ⟨hinit, hi⟩ := List.forall_mem_append.1 hwritten
  obtain ⟨hi, hafter⟩ := List.forall_mem_singleton.1 hi
  -- what stands before the bracket belongs to the last item
  have harray := @Written.array init ⟨i.before, i.value, i.text, close, i.blank_before, hclose⟩
    (fun j hj => (hinit j hj).1) hi
  rw [← hvalues, List.map_append]
  simpa [ItemText.padded, hafter] using harray

/-- Texts of members with commas between them and blanks around them, in braces. -/
theorem written_object_of_texts {layout : TextLayout} (hlayout : layout.Plain) {depth : Nat}
    {close : List Char} (hclose : Blank close) {members : List (String × Json)}
    {texts : List (List Char)} {last : List Char}
    (h : List.Forall₂ EntryText
      (members.map fun m => (layout.separator depth ++ quote m.1 ++ layout.colon, m.2))
        (texts ++ [last])) :
    Written (.object (Members.ofList (members.map fun m => (m.1, m.2.sorted))))
      ('\x7b' :: (commas texts ++ (last ++ (close ++ ['\x7d'])))) := by
  rw [List.forall₂_map_left_iff] at h
  obtain ⟨all, hvalues, hwritten, hpadded⟩ :=
    exists_forall_of_forall₂ (f := fun m : String × Json => (m.1, m.2.sorted))
    (g := MemberText.member) (k := MemberText.padded)
    (fun m text hm => exists_memberText hlayout hm) h
  obtain ⟨init, t, rfl, rfl, rfl⟩ := exists_append_singleton_of_map hpadded
  obtain ⟨hinit, ht⟩ := List.forall_mem_append.1 hwritten
  obtain ⟨ht, hafter⟩ := List.forall_mem_singleton.1 ht
  rw [List.map_append] at hvalues
  obtain ⟨hsorted, hfind⟩ := Members.ofList_eq_iff.1 (congrArg Members.ofList hvalues)
  have hobject := @Written.object init
    ⟨t.label, ⟨t.item.before, t.item.value, t.item.text, close, t.item.blank_before, hclose⟩⟩ _
    (fun u hu => (hinit u hu).1) ht hsorted hfind
  simpa [MemberText.padded, ItemText.padded, hafter] using hobject

theorem writes_array {layout : TextLayout} (hlayout : layout.Plain) {lead : String} {depth : Nat}
    {items : List Json}
    (h : ∀ p ∈ Placed.parts layout ⟨lead, depth, .array items⟩, Writes layout p) :
    Writes layout ⟨lead, depth, .array items⟩ := by
  intro out
  rw [sorted_array, write_eq]
  cases items with
  | nil =>
      exact ⟨_, .emptyArray blank_nil,
        by simp [Placed.parts, Placed.opening, Placed.closing, writeAll]⟩
  | cons v items =>
      rw [Placed.parts_array] at h ⊢
      obtain ⟨texts, last, htexts, hwrite⟩ := exists_commas_of_row (by simp) h (out ++ lead ++ "[")
      refine ⟨_, written_array_of_texts (hlayout.separator (depth + 1))
        (hlayout.separator depth) htexts, ?_⟩
      rw [String.toList_append, Placed.opening, hwrite]
      simp [Placed.closing]

theorem writes_object {layout : TextLayout} (hlayout : layout.Plain) {lead : String} {depth : Nat}
    {members : List (String × Json)}
    (h : ∀ p ∈ Placed.parts layout ⟨lead, depth, .object members⟩, Writes layout p) :
    Writes layout ⟨lead, depth, .object members⟩ := by
  intro out
  rw [write_eq, sorted_object]
  cases members with
  | nil =>
      have hempty : Members.ofList (([] : List (String × Json)).map fun m => (m.1, m.2.sorted)) =
          [] :=
        Members.ofList_eq_of_perm (.refl _) .nil
      rw [hempty]
      exact ⟨_, .emptyObject blank_nil,
        by simp [Placed.parts, Placed.opening, Placed.closing, writeAll]⟩
  | cons m members =>
      rw [Placed.parts_object] at h ⊢
      obtain ⟨texts, last, htexts, hwrite⟩ :=
        exists_commas_of_row (by simp) h (out ++ lead ++ "\x7b")
      refine ⟨_, written_object_of_texts hlayout (hlayout.separator depth) htexts, ?_⟩
      rw [String.toList_append, Placed.opening, hwrite]
      simp [Placed.closing]

theorem writes_scalar {layout : TextLayout} {p : Placed} (hsorted : p.value.sorted = p.value)
    (hscalar : ScalarText p.value p.opening.toList) : Writes layout p := by
  intro out
  have hends : p.parts layout = [] ∧ p.closing layout = "" := by
    obtain ⟨lead, depth, v⟩ := p
    cases v with
    | array => cases hscalar
    | object => cases hscalar
    | _ => exact ⟨rfl, rfl⟩
  refine ⟨p.opening.toList, ?_, ?_⟩
  · rw [hsorted]
    exact .scalar hscalar
  · rw [write_eq, hends.1, hends.2]
    simp [writeAll]

theorem writes_of_integral {layout : TextLayout} (hlayout : layout.Plain) (p : Placed)
    (h : p.value.Integral) :
    Writes layout p := by
  induction p using (@Branching.parts_induction _ (placedBranching layout)) with
  | step p ih =>
      obtain ⟨lead, depth, v⟩ := p
      have hvalue : ∀ q ∈ Placed.parts layout ⟨lead, depth, v⟩, q.value ∈ v.parts := by
        intro q hq
        rw [← Placed.parts_value layout ⟨lead, depth, v⟩]
        exact List.mem_map_of_mem hq
      cases h with
      | null => exact writes_scalar sorted_null .null
      | bool b =>
          refine writes_scalar (sorted_bool b) ?_
          have hbool := ScalarText.bool b
          cases b <;> exact hbool
      | number hlow hhigh => exact writes_scalar (sorted_number _) (.number (.integer hlow hhigh))
      | string s => exact writes_scalar (sorted_string s) (.string (quoted_quote s))
      | array hitems => exact writes_array hlayout fun q hq => ih q hq (hitems _ (hvalue q hq))
      | object hmembers =>
          refine writes_object hlayout fun q hq => ih q hq ?_
          obtain ⟨m, hm, hsnd⟩ := List.mem_map.1 (hvalue q hq)
          rw [← hsnd]
          exact hmembers m hm

/-- The text of a value is a way to write it. -/
theorem written_of_render {layout : TextLayout} (hlayout : layout.Plain) {v : Json}
    (h : v.Integral) :
    Written v.sorted (v.render layout).toList := by
  obtain ⟨body, hbody, htext⟩ := writes_of_integral hlayout ⟨"", 0, v⟩ h ""
  rw [render_eq_write, htext]
  exact hbody

end Arborist.Json
