import Arborist.Json.Reader
import Arborist.Proofs.JsonGrammar

/-!
# The reader and the grammar

The reader accepts the texts of `Json.Renders` and gives each of them its value
(`readAll_eq_ok_iff`).

What a step can do is said once, by `Reader.Moves`.  That nothing else is accepted follows from an
invariant of the moves: what has been read so far opens the frames that are pending
(`Reader.Reached`).  That everything is accepted follows by induction on the grammar, where a value
that is due is read whatever comes behind it.
-/

namespace Arborist.Json

namespace Reader

/-! ### Steps -/

/-- What a `step` of the reader that goes on can do.  There is one rule for each way to begin, to go
on with or to end a value. -/
inductive Moves : Reader → Reader → Prop
  | scalar {frames : List Frame} {before tail rest : List Char} {c : Char} {v : Json} :
      Blank before → isBlank c = false → c ≠ '[' → c ≠ '\x7b' →
        scanScalar (c :: tail) = .ok (v, rest) →
      Moves ⟨none, frames, before ++ c :: tail⟩ ⟨some v, frames, rest⟩
  | emptyArray {frames : List Frame} {before gap rest : List Char} : Blank before → Blank gap →
      Moves ⟨none, frames, before ++ '[' :: (gap ++ ']' :: rest)⟩ ⟨some (.array []), frames, rest⟩
  | openArray {frames : List Frame} {before gap rest : List Char} {c : Char} :
      Blank before → Blank gap → isBlank c = false → c ≠ ']' →
      Moves ⟨none, frames, before ++ '[' :: (gap ++ c :: rest)⟩
        ⟨none, .array [] :: frames, c :: rest⟩
  | nextItem {frames : List Frame} {v : Json} {items : List Json} {after gap rest : List Char}
      {c : Char} :
      Blank after → Blank gap → isBlank c = false → c ≠ ']' →
      Moves ⟨some v, .array items :: frames, after ++ ',' :: (gap ++ c :: rest)⟩
        ⟨none, .array (v :: items) :: frames, c :: rest⟩
  | closeArray {frames : List Frame} {v : Json} {items : List Json} {after rest : List Char} :
      Blank after →
      Moves ⟨some v, .array items :: frames, after ++ ']' :: rest⟩
        ⟨some (.array (v :: items).reverse), frames, rest⟩
  | emptyObject {frames : List Frame} {before gap rest : List Char} : Blank before → Blank gap →
      Moves ⟨none, frames, before ++ '\x7b' :: (gap ++ '\x7d' :: rest)⟩
        ⟨some (.object []), frames, rest⟩
  | openObject {frames : List Frame} {before rest : List Char} (label : NameText) : Blank before →
      Moves ⟨none, frames, before ++ '\x7b' :: (label.padded ++ rest)⟩
        ⟨none, .object [] label.name :: frames, rest⟩
  | nextMember {frames : List Frame} {v : Json} {members : List (String × Json)} {name : String}
      {after rest : List Char} (label : NameText) : Blank after →
      Moves ⟨some v, .object members name :: frames, after ++ ',' :: (label.padded ++ rest)⟩
        ⟨none, .object ((name, v) :: members) label.name :: frames, rest⟩
  | closeObject {frames : List Frame} {v : Json} {members : List (String × Json)} {name : String}
      {after rest : List Char} : Blank after →
      Moves ⟨some v, .object members name :: frames, after ++ '\x7d' :: rest⟩
        ⟨some (.object (Members.ofList ((name, v) :: members).reverse)), frames, rest⟩

theorem skipBlanks_append_cons {before : List Char} {c : Char} (hbefore : Blank before)
    (hc : isBlank c = false)
    (rest : List Char) : skipBlanks (before ++ c :: rest) = c :: rest := by
  rw [skipBlanks_append hbefore, skipBlanks_cons hc]

/-- Behind its opening quote a name is read up to the colon. -/
theorem exists_skipBlanks_label (label : NameText) (rest : List Char) :
    ∃ tail, skipBlanks (label.padded ++ rest) = '"' :: tail ∧ ∀ members frames,
      beginMember members frames tail =
        .more ⟨none, .object members label.name :: frames, rest⟩ := by
  obtain ⟨before, name, text, after, hbefore, hquoted, hafter⟩ := label
  obtain @⟨chars, hchars⟩ := hquoted
  refine ⟨chars ++ '"' :: (after ++ ':' :: rest), ?_, ?_⟩
  · simp [NameText.padded, skipBlanks_append_cons hbefore (show isBlank '"' = false from rfl)]
  · intro members frames
    have hcolon : skipBlanks (after ++ ':' :: rest) = ':' :: rest :=
      skipBlanks_append_cons hafter (by decide) rest
    simp [beginMember, scanString_append hchars, hcolon]

theorem exists_label_of_beginMember {members : List (String × Json)} {frames : List Frame}
    {before tail : List Char}
    {s : Reader} (hbefore : Blank before) (h : beginMember members frames tail = .more s) :
    ∃ (label : NameText) (rest : List Char), before ++ '"' :: tail = label.padded ++ rest
      ∧ s = ⟨none, .object members label.name :: frames, rest⟩ := by
  unfold beginMember at h
  split at h
  next => cases h
  next name rest hstring =>
    obtain ⟨quoted, hquoted, heq⟩ := scanString_eq_ok_iff.1 hstring
    split at h
    next => cases h
    next c rest' hskip =>
      obtain ⟨-, after, hafter, rfl⟩ := exists_of_skipBlanks hskip
      split at h
      next hc =>
        cases h
        refine ⟨⟨before, name, quoted, after, hbefore, hquoted, hafter⟩, rest', ?_, rfl⟩
        simp [heq, hc, NameText.padded]
      next => cases h

theorem step_of_moves {r s : Reader} (h : Moves r s) : r.step = .more s := by
  cases h with
  | scalar hbefore hc hbracket hbrace hscan =>
      simp [step, beginValue, skipBlanks_append_cons hbefore hc, hbracket, hbrace, hscan]
  | emptyArray hbefore hgap =>
      rw [step, beginValue, skipBlanks_append_cons hbefore (by decide)]
      simp [beginArray, skipBlanks_append_cons hgap (show isBlank ']' = false from rfl)]
  | openArray hbefore hgap hc hne =>
      rw [step, beginValue, skipBlanks_append_cons hbefore (by decide)]
      simp [beginArray, skipBlanks_append_cons hgap hc, hne]
  | nextItem hafter hgap hc hne =>
      simp only [step]
      rw [endValue, skipBlanks_append_cons hafter (by decide)]
      simp [Reader.nextItem, skipBlanks_append_cons hgap hc, hne]
  | closeArray hafter =>
      simp only [step]
      rw [endValue, skipBlanks_append_cons hafter (by decide)]
      simp
  | emptyObject hbefore hgap =>
      rw [step, beginValue, skipBlanks_append_cons hbefore (by decide)]
      simp [beginObject, skipBlanks_append_cons hgap (show isBlank '\x7d' = false from rfl)]
  | @openObject frames _ rest label hbefore =>
      obtain ⟨tail, hskip, hmember⟩ := exists_skipBlanks_label label rest
      rw [step, beginValue, skipBlanks_append_cons hbefore (by decide)]
      simp [beginObject, hskip, hmember]
  | @nextMember frames v members name _ rest label hafter =>
      obtain ⟨tail, hskip, hmember⟩ := exists_skipBlanks_label label rest
      simp only [step]
      rw [endValue, skipBlanks_append_cons hafter (by decide)]
      simp [Reader.nextMember, hskip, hmember]
  | closeObject hafter =>
      simp only [step]
      rw [endValue, skipBlanks_append_cons hafter (by decide)]
      simp

theorem moves_of_beginArray {frames : List Frame} {before text : List Char} {s : Reader}
    (hbefore : Blank before)
    (h : beginArray frames text = .more s) : Moves ⟨none, frames, before ++ '[' :: text⟩ s := by
  unfold beginArray at h
  split at h
  next => cases h
  next c rest hskip =>
    obtain ⟨hc, gap, hgap, rfl⟩ := exists_of_skipBlanks hskip
    split at h
    next heq =>
      subst heq
      cases h
      exact .emptyArray hbefore hgap
    next hne =>
      cases h
      exact .openArray hbefore hgap hc hne

theorem moves_of_beginObject {frames : List Frame} {before text : List Char} {s : Reader}
    (hbefore : Blank before)
    (h : beginObject frames text = .more s) : Moves ⟨none, frames, before ++ '\x7b' :: text⟩ s := by
  unfold beginObject at h
  split at h
  next => cases h
  next c rest hskip =>
    obtain ⟨hc, gap, hgap, rfl⟩ := exists_of_skipBlanks hskip
    split at h
    next heq =>
      subst heq
      cases h
      exact .emptyObject hbefore hgap
    next =>
      split at h
      next heq =>
        subst heq
        obtain ⟨label, rest, hlabel, rfl⟩ := exists_label_of_beginMember hgap h
        rw [hlabel]
        exact .openObject label hbefore
      next => cases h

theorem moves_of_beginValue {frames : List Frame} {text : List Char} {s : Reader}
    (h : beginValue frames text = .more s) : Moves ⟨none, frames, text⟩ s := by
  unfold beginValue at h
  split at h
  next => cases h
  next c rest hskip =>
    obtain ⟨hc, before, hbefore, rfl⟩ := exists_of_skipBlanks hskip
    split at h
    next heq =>
      subst heq
      exact moves_of_beginArray hbefore h
    next hbracket =>
      split at h
      next heq =>
        subst heq
        exact moves_of_beginObject hbefore h
      next hbrace =>
        split at h
        next v tail hscan =>
          cases h
          exact .scalar hbefore hc hbracket hbrace hscan
        next => cases h

theorem moves_of_nextItem {v : Json} {items : List Json} {frames : List Frame}
    {after text : List Char} {s : Reader}
    (hafter : Blank after) (h : Reader.nextItem (v :: items) frames text = .more s) :
    Moves ⟨some v, .array items :: frames, after ++ ',' :: text⟩ s := by
  unfold Reader.nextItem at h
  split at h
  next => cases h
  next c rest hskip =>
    obtain ⟨hc, gap, hgap, rfl⟩ := exists_of_skipBlanks hskip
    split at h
    next => cases h
    next hne =>
      cases h
      exact .nextItem hafter hgap hc hne

theorem moves_of_nextMember {v : Json} {members : List (String × Json)} {name : String}
    {frames : List Frame} {after text : List Char} {s : Reader} (hafter : Blank after)
    (h : Reader.nextMember ((name, v) :: members) frames text = .more s) :
    Moves ⟨some v, .object members name :: frames, after ++ ',' :: text⟩ s := by
  unfold Reader.nextMember at h
  split at h
  next => cases h
  next c rest hskip =>
    obtain ⟨hc, gap, hgap, rfl⟩ := exists_of_skipBlanks hskip
    split at h
    next heq =>
      subst heq
      obtain ⟨label, rest, hlabel, rfl⟩ := exists_label_of_beginMember hgap h
      rw [hlabel]
      exact .nextMember label hafter
    next => split at h <;> cases h

theorem moves_of_endValue {v : Json} {frames : List Frame} {text : List Char} {s : Reader}
    (h : endValue v frames text = .more s) : Moves ⟨some v, frames, text⟩ s := by
  unfold endValue at h
  split at h
  · cases h
  · split at h
    next => cases h
    next c rest hskip =>
      obtain ⟨-, after, hafter, rfl⟩ := exists_of_skipBlanks hskip
      split at h
      next heq =>
        subst heq
        cases h
        exact .closeArray hafter
      next =>
        split at h
        next heq =>
          subst heq
          exact moves_of_nextItem hafter h
        next => cases h
  · split at h
    next => cases h
    next c rest hskip =>
      obtain ⟨-, after, hafter, rfl⟩ := exists_of_skipBlanks hskip
      split at h
      next heq =>
        subst heq
        cases h
        exact .closeObject hafter
      next =>
        split at h
        next heq =>
          subst heq
          exact moves_of_nextMember hafter h
        next => cases h

theorem step_eq_more_iff {r s : Reader} : r.step = .more s ↔ Moves r s := by
  constructor
  · intro h
    obtain ⟨value, frames, rest⟩ := r
    cases value with
    | none => exact moves_of_beginValue h
    | some v => exact moves_of_endValue h
  · exact step_of_moves

/-- Where a value is due the reader is not done. -/
theorem beginValue_ne_done (frames : List Frame) (text : List Char) (v : Json) (rest : List Char) :
    beginValue frames text ≠ .done v rest := by
  intro h
  unfold beginValue beginArray beginObject beginMember at h
  repeat' split at h
  all_goals cases h

theorem eq_of_step_done {r : Reader} {v : Json} {rest : List Char} (h : r.step = .done v rest) :
    r = ⟨some v, [], rest⟩ := by
  obtain ⟨value, frames, text⟩ := r
  cases value with
  | none => exact absurd h (beginValue_ne_done frames text v rest)
  | some w =>
      simp only [step] at h
      unfold endValue Reader.nextItem Reader.nextMember beginMember at h
      repeat' split at h
      all_goals cases h
      rfl

/-! ### What has been read -/

/-- The text up to a place where a value of the innermost frame is due. -/
inductive Opened : List Frame → List Char → Prop
  | nil : Opened [] []
  | array {frames : List Frame} {read before : List Char} {items : List ItemText} :
      Opened frames read → Blank before → (∀ i ∈ items, Written i.value i.text) →
      Opened (.array (items.map ItemText.value).reverse :: frames)
        (read ++ (before ++ '[' :: commas (items.map ItemText.padded)))
  | object {frames : List Frame} {read before : List Char} {texts : List MemberText}
      (label : NameText) :
      Opened frames read → Blank before → (∀ m ∈ texts, Written m.item.value m.item.text) →
      Opened (.object (texts.map MemberText.member).reverse label.name :: frames)
        (read ++ (before ++ '\x7b' :: (commas (texts.map MemberText.padded) ++ label.padded)))

/-- A point in the reading of `text`: what has been read opens the frames, and the value just read
comes behind it.  Every move leads from such a point to another one. -/
inductive Reached (text : List Char) : Reader → Prop
  | due {frames : List Frame} {read before rest : List Char} :
      Opened frames read → Blank before → text = read ++ (before ++ rest) →
        Reached text ⟨none, frames, rest⟩
  | read {frames : List Frame} {read before written rest : List Char} {v : Json} :
      Opened frames read → Blank before → Written v written →
        text = read ++ (before ++ (written ++ rest)) →
      Reached text ⟨some v, frames, rest⟩

theorem reached_start (text : List Char) : Reached text ⟨none, [], text⟩ :=
  .due .nil blank_nil rfl

theorem commas_append_singleton (texts : List (List Char)) (last : List Char) :
    commas (texts ++ [last]) = commas texts ++ (last ++ [',']) := by
  rw [commas, List.flatMap_append, List.flatMap_singleton, commas]

theorem Opened.item {frames : List Frame} {items : List Json} {read : List Char} (i : ItemText)
    (h : Opened (.array items :: frames) read) (hi : Written i.value i.text) :
    Opened (.array (i.value :: items) :: frames) (read ++ (i.padded ++ [','])) := by
  cases h with
  | @array _ outer before items hopened hbefore hitems =>
      have hitems' : ∀ j ∈ items ++ [i], Written j.value j.text :=
        List.forall_mem_append.2 ⟨hitems, List.forall_mem_singleton.2 hi⟩
      simpa [commas_append_singleton] using Opened.array hopened hbefore hitems'

theorem Opened.member {frames : List Frame} {members : List (String × Json)} {name : String}
    {read : List Char} (i : ItemText) (label : NameText)
    (h : Opened (.object members name :: frames) read) (hi : Written i.value i.text) :
    Opened (.object ((name, i.value) :: members) label.name :: frames)
      (read ++ (i.padded ++ ',' :: label.padded)) := by
  cases h with
  | @object _ outer before texts last hopened hbefore htexts =>
      have htexts' : ∀ m ∈ texts ++ [⟨last, i⟩], Written m.item.value m.item.text :=
        List.forall_mem_append.2 ⟨htexts, List.forall_mem_singleton.2 hi⟩
      simpa [commas_append_singleton, MemberText.member, MemberText.padded] using
        Opened.object label hopened hbefore htexts'

theorem Opened.closeArray {frames : List Frame} {items : List Json} {read : List Char}
    (i : ItemText) (h : Opened (.array items :: frames) read) (hi : Written i.value i.text) :
    ∃ outer before written, Opened frames outer ∧ Blank before ∧
      Written (.array (i.value :: items).reverse) written
      ∧ read ++ (i.padded ++ [']']) = outer ++ (before ++ written) := by
  cases h with
  | @array _ outer before items hopened hbefore hitems =>
      rw [List.reverse_cons, List.reverse_reverse]
      exact ⟨outer, before, _, hopened, hbefore, .array hitems hi, by simp⟩

theorem Opened.closeObject {frames : List Frame} {members : List (String × Json)} {name : String}
    {read : List Char} (i : ItemText) (h : Opened (.object members name :: frames) read)
    (hi : Written i.value i.text) :
    ∃ outer before written, Opened frames outer ∧ Blank before
      ∧ Written (.object (Members.ofList ((name, i.value) :: members).reverse)) written
      ∧ read ++ (i.padded ++ ['\x7d']) = outer ++ (before ++ written) := by
  cases h with
  | @object _ outer before texts label hopened hbefore htexts =>
      have hentries : ((label.name, i.value) :: (texts.map MemberText.member).reverse).reverse
          = texts.map MemberText.member ++ [MemberText.member ⟨label, i⟩] := by
        rw [List.reverse_cons, List.reverse_reverse]
        rfl
      rw [hentries]
      have hmembers := Members.ofList_eq_iff.1 (Eq.refl
        (Members.ofList (texts.map MemberText.member ++ [MemberText.member ⟨label, i⟩])))
      refine ⟨outer, before, _, hopened, hbefore, .object htexts hi hmembers.1 hmembers.2, ?_⟩
      simp [MemberText.padded]

/-- Every move keeps to the grammar. -/
theorem Reached.moves {text : List Char} {r s : Reader} (hr : Reached text r) (h : Moves r s) :
    Reached text s := by
  cases h with
  | scalar hbefore hc hbracket hbrace hscan =>
      obtain ⟨hopened, hblank, rfl⟩ := hr
      obtain ⟨written, hscalar, heq⟩ := exists_of_scanScalar hscan
      exact .read hopened (hblank.append hbefore) (.scalar hscalar) (by simp [heq])
  | emptyArray hbefore hgap =>
      obtain ⟨hopened, hblank, rfl⟩ := hr
      exact .read hopened (hblank.append hbefore) (.emptyArray hgap) (by simp)
  | openArray hbefore hgap hc hne =>
      obtain ⟨hopened, hblank, rfl⟩ := hr
      have hopened' := @Opened.array _ _ _ [] hopened (hblank.append hbefore) (by simp)
      exact .due hopened' hgap (by simp [commas])
  | @nextItem frames v items after gap rest c hafter hgap hc hne =>
      cases hr with
      | @read _ _ before written _ _ hopened hbefore hwritten htext =>
          have hopened' := hopened.item ⟨before, v, written, after, hbefore, hafter⟩ hwritten
          exact .due hopened' hgap (by simp [htext, ItemText.padded])
  | @closeArray frames v items after rest hafter =>
      cases hr with
      | @read _ _ before written _ _ hopened hbefore hwritten htext =>
          obtain ⟨outer, start, array, houter, hstart, harray, heq⟩ :=
            hopened.closeArray ⟨before, v, written, after, hbefore, hafter⟩ hwritten
          have hread := congrArg (· ++ rest) heq
          exact .read houter hstart harray (by simpa [htext, ItemText.padded] using hread)
  | emptyObject hbefore hgap =>
      obtain ⟨hopened, hblank, rfl⟩ := hr
      exact .read hopened (hblank.append hbefore) (.emptyObject hgap) (by simp)
  | openObject label hbefore =>
      obtain ⟨hopened, hblank, rfl⟩ := hr
      have hopened' := @Opened.object _ _ _ [] label hopened (hblank.append hbefore) (by simp)
      exact .due hopened' blank_nil (by simp [commas])
  | @nextMember frames v members name after rest label hafter =>
      cases hr with
      | @read _ _ before written _ _ hopened hbefore hwritten htext =>
          have hopened' :=
            hopened.member ⟨before, v, written, after, hbefore, hafter⟩ label hwritten
          exact .due hopened' blank_nil (by simp [htext, ItemText.padded])
  | @closeObject frames v members name after rest hafter =>
      cases hr with
      | @read _ _ before written _ _ hopened hbefore hwritten htext =>
          obtain ⟨outer, start, object, houter, hstart, hobject, heq⟩ :=
            hopened.closeObject ⟨before, v, written, after, hbefore, hafter⟩ hwritten
          have hread := congrArg (· ++ rest) heq
          exact .read houter hstart hobject (by simpa [htext, ItemText.padded] using hread)

/-- And so does every run. -/
theorem Reached.run {text : List Char} {r : Reader} {v : Json} {rest : List Char}
    (hr : Reached text r)
    (h : r.run = .ok (v, rest)) : Reached text ⟨some v, [], rest⟩ := by
  fun_induction Reader.run r with
  | case1 r s hstep ih => exact ih (hr.moves (step_eq_more_iff.1 hstep)) h
  | case2 r w tail hstep =>
      cases h
      rw [eq_of_step_done hstep] at hr
      exact hr
  | case3 => cases h

/-! ### What is read -/

theorem run_of_moves {r s : Reader} (h : Moves r s) : r.run = s.run :=
  run_of_more (step_eq_more_iff.2 h)

theorem run_of_halt {r : Reader} {halt : Halt} (h : r.step = .halt halt) : r.run = .error halt := by
  rw [run]
  split <;> simp_all

/-- A run depends on its first step only. -/
theorem run_congr {r s : Reader} (h : r.step = s.step) : r.run = s.run := by
  cases hr : r.step with
  | more t => rw [run_of_more hr, run_of_more (h.symm.trans hr)]
  | done v rest => rw [run_of_done hr, run_of_done (h.symm.trans hr)]
  | halt halt => rw [run_of_halt hr, run_of_halt (h.symm.trans hr)]

theorem run_blank {before : List Char} (hbefore : Blank before) (frames : List Frame)
    (text : List Char) :
    run ⟨none, frames, before ++ text⟩ = run ⟨none, frames, text⟩ := by
  apply run_congr
  simp only [step, beginValue, skipBlanks_append hbefore]

/-- The value `v`, where it is due, is read from `text`, whatever is pending and whatever comes
behind it. -/
def Takes (v : Json) (text : List Char) : Prop :=
  ∀ (frames : List Frame) (rest : List Char), v.Ends rest →
    run ⟨none, frames, text ++ rest⟩ = run ⟨some v, frames, rest⟩

theorem endsNumber_append {blanks rest : List Char} (h : Blank blanks) (hrest : EndsNumber rest) :
    EndsNumber (blanks ++ rest) := by
  cases blanks with
  | nil => exact hrest
  | cons c blanks =>
      intro d hd
      rw [List.cons_append, List.head?_cons, Option.mem_some_iff] at hd
      subst hd
      have hc := blank_iff.1 h c List.mem_cons_self
      simp only [List.mem_cons, List.not_mem_nil, or_false] at hc
      rcases hc with rfl | rfl | rfl | rfl <;> decide

theorem endsNumber_cons {c : Char} (h : c ∈ [',', ']', '\x7d']) (rest : List Char) :
    EndsNumber (c :: rest) := by
  intro d hd
  rw [List.head?_cons, Option.mem_some_iff] at hd
  subst hd
  simp only [List.mem_cons, List.not_mem_nil, or_false] at h
  rcases h with rfl | rfl | rfl <;> decide

theorem Takes.item {i : ItemText} (h : Takes i.value i.text) (frames : List Frame) {c : Char}
    (hc : c ∈ [',', ']', '\x7d']) (rest : List Char) :
    run ⟨none, frames, i.padded ++ c :: rest⟩ =
      run ⟨some i.value, frames, i.after ++ c :: rest⟩ := by
  rw [ItemText.padded, List.append_assoc, List.append_assoc, run_blank i.blank_before]
  exact h frames _ fun _ => endsNumber_append i.blank_after (endsNumber_cons hc rest)

/-- The items of an array are read one after the other.  The first one comes behind the bracket and
each other one behind a comma, so `start` says where the text of the items begins. -/
theorem run_items {frames : List Frame} {items : List ItemText} {last : ItemText}
    (hitems : ∀ i ∈ items, Written i.value i.text ∧ Takes i.value i.text)
    (hlast : Written last.value last.text ∧ Takes last.value last.text) (rest : List Char)
    (read : List Json) (start : List Char → Reader)
    (hstart : ∀ (i : ItemText) (rest : List Char), Written i.value i.text →
      (start (i.padded ++ rest)).run = run ⟨none, .array read :: frames, i.padded ++ rest⟩) :
    (start (commas (items.map ItemText.padded) ++ (last.padded ++ ']' :: rest))).run
      = run ⟨some (.array (read.reverse ++ (items.map ItemText.value ++ [last.value]))),
        frames, rest⟩ := by
  induction items generalizing read start with
  | nil =>
      rw [List.map_nil, commas, List.flatMap_nil, List.nil_append, hstart last _ hlast.1,
        hlast.2.item _ (by decide), run_of_moves (.closeArray last.blank_after), List.reverse_cons]
      rfl
  | cons i items ih =>
      obtain ⟨hi, hitems⟩ := List.forall_mem_cons.1 hitems
      have hcomma : commas ((i :: items).map ItemText.padded) ++ (last.padded ++ ']' :: rest)
          = i.padded ++ ',' ::
              (commas (items.map ItemText.padded) ++ (last.padded ++ ']' :: rest)) := by
        simp [commas]
      rw [hcomma, hstart i _ hi.1, hi.2.item _ (by decide)]
      -- The next item comes behind the comma, so the induction goes on from there.
      rw [ih hitems (i.value :: read) fun text =>
        ⟨some i.value, .array read :: frames, i.after ++ ',' :: text⟩]
      · simp
      · intro j rest hj
        obtain ⟨c, tail, hpadded, hc, hne⟩ := ItemText.exists_padded_append hj rest
        rw [hpadded, run_of_moves (.nextItem i.blank_after j.blank_before hc hne),
          run_blank j.blank_before]

/-- The members of an object are read one after the other. -/
theorem run_members {frames : List Frame} {texts : List MemberText} {last : MemberText}
    (htexts : ∀ m ∈ texts, Takes m.item.value m.item.text)
    (hlast : Takes last.item.value last.item.text)
    (rest : List Char) (read : List (String × Json)) (start : List Char → Reader)
    (hstart : ∀ (label : NameText) (rest : List Char),
      (start (label.padded ++ rest)).run = run ⟨none, .object read label.name :: frames, rest⟩) :
    (start (commas (texts.map MemberText.padded) ++ (last.padded ++ '\x7d' :: rest))).run
      = run ⟨some (.object
        (Members.ofList (read.reverse ++ (texts.map MemberText.member ++ [last.member])))), frames,
          rest⟩ := by
  induction texts generalizing read start with
  | nil =>
      rw [List.map_nil, commas, List.flatMap_nil, List.nil_append, MemberText.padded,
        List.append_assoc, hstart, hlast.item _ (by decide),
        run_of_moves (.closeObject last.item.blank_after), List.reverse_cons]
      rfl
  | cons m texts ih =>
      obtain ⟨hm, htexts⟩ := List.forall_mem_cons.1 htexts
      have hcomma : commas ((m :: texts).map MemberText.padded) ++ (last.padded ++ '\x7d' :: rest)
          = m.label.padded ++ (m.item.padded
            ++ ',' :: (commas (texts.map MemberText.padded) ++
                (last.padded ++ '\x7d' :: rest))) := by
        simp [commas, MemberText.padded]
      rw [hcomma, hstart, hm.item _ (by decide)]
      rw [ih htexts (m.member :: read) fun text =>
        ⟨some m.item.value, .object read m.label.name :: frames, m.item.after ++ ',' :: text⟩]
      · simp
      · intro label rest
        exact run_of_moves (.nextMember label m.item.blank_after)

theorem takes_of_scalarText {v : Json} {text : List Char} (h : ScalarText v text) :
    Takes v text := by
  intro frames rest hrest
  have hscan := scanScalar_append h hrest
  obtain ⟨c, tail, rfl, hblank, hc⟩ := h.exists_cons
  simp only [List.mem_cons, List.not_mem_nil, or_false, not_or] at hc
  exact run_of_moves (.scalar blank_nil hblank hc.1 hc.2.2 hscan)

theorem takes_of_written {v : Json} {text : List Char} (h : Written v text) : Takes v text := by
  induction h with
  | scalar hscalar => exact takes_of_scalarText hscalar
  | emptyArray hgap =>
      intro frames rest _
      rw [List.cons_append, List.append_assoc]
      exact run_of_moves (.emptyArray blank_nil hgap)
  | @array items last hitems hlast ihitems ihlast =>
      intro frames rest _
      have hopen : ∀ (i : ItemText) (rest : List Char), Written i.value i.text →
          run ⟨none, frames, '[' :: (i.padded ++ rest)⟩ =
              run ⟨none, .array [] :: frames, i.padded ++ rest⟩ := by
        intro i rest hi
        obtain ⟨c, tail, hpadded, hc, hne⟩ := ItemText.exists_padded_append hi rest
        rw [hpadded, run_blank i.blank_before]
        exact run_of_moves (.openArray blank_nil i.blank_before hc hne)
      have hrun := run_items (fun i hi => ⟨hitems i hi, ihitems i hi⟩) ⟨hlast, ihlast⟩ rest []
        (fun text => ⟨none, frames, '[' :: text⟩) hopen
      simpa using hrun
  | emptyObject hgap =>
      intro frames rest _
      rw [List.cons_append, List.append_assoc]
      exact run_of_moves (.emptyObject blank_nil hgap)
  | @object texts last members htexts hlast hsorted hfind ihtexts ihlast =>
      intro frames rest _
      have hmembers : Members.ofList (texts.map MemberText.member ++ [last.member]) = members :=
        Members.ofList_eq_iff.2 ⟨hsorted, hfind⟩
      have hrun := run_members ihtexts ihlast rest [] (fun text => ⟨none, frames, '\x7b' :: text⟩)
        fun label rest => run_of_moves (.openObject label blank_nil)
      rw [List.reverse_nil, List.nil_append, hmembers] at hrun
      simpa using hrun

end Reader

/-! ### Texts -/

/-- A value at the beginning of a text is read and the rest is left. -/
theorem run_append {i : ItemText} (h : Written i.value i.text) {rest : List Char}
    (hrest : i.value.Ends (i.after ++ rest)) :
    Reader.run ⟨none, [], i.padded ++ rest⟩ = .ok (i.value, i.after ++ rest) := by
  rw [ItemText.padded, List.append_assoc, List.append_assoc, Reader.run_blank i.blank_before,
    Reader.takes_of_written h [] _ hrest]
  exact Reader.run_of_done rfl

/-- At the end of a text nothing continues a number. -/
theorem ends_after (i : ItemText) : i.value.Ends (i.after ++ []) :=
  fun _ => Reader.endsNumber_append i.blank_after (by simp [EndsNumber])

/-- The reader accepts the texts of values, and each with its value. -/
theorem readAll_eq_ok_iff {text : List Char} {v : Json} :
    readAll text = .ok v ↔ v.Renders text := by
  constructor
  · intro h
    unfold readAll at h
    split at h
    next => cases h
    next w rest hrun =>
      split at h
      next hskip =>
        cases h
        cases (Reader.reached_start text).run hrun with
        | @read _ _ before written _ _ hopened hbefore hwritten htext =>
            cases hopened
            exact ⟨⟨before, v, written, rest, hbefore, skipBlanks_eq_nil_iff.1 hskip⟩, rfl,
              hwritten, htext⟩
      next => cases h
  · intro h
    obtain ⟨i, rfl, hi, rfl⟩ := h
    have hrun := run_append hi (ends_after i)
    rw [List.append_nil, List.append_nil] at hrun
    rw [readAll, hrun]
    simp only [skipBlanks_eq_nil_iff.2 i.blank_after]

end Arborist.Json
