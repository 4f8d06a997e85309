import Arborist.Proofs.JsonNumbers
import Arborist.Proofs.JsonStrings
import Arborist.Proofs.Members

/-!
# JSON texts

`Json.Written v text` says that `text` is a way to write `v`, and `Json.Renders v text` lets blanks
stand around it.  Blanks may stand around every item, name and value.  The members of an object may
come in any order, and if a name is used more than once then the last value counts.

This is what a JSON text is, without a reader.  That the reader takes every such text for the value
it was made from, and takes nothing else, is proved in `Proofs/JsonReader.lean`.
-/

namespace Arborist.Json

/-! ### Scalars -/

inductive ScalarText : Json → List Char → Prop
  | null : ScalarText .null "null".toList
  | bool (b : Bool) : ScalarText (.bool b) (if b then "true".toList else "false".toList)
  | number {n : Number} {text : List Char} : NumberText n text → ScalarText (.number n) text
  | string {s : String} {text : List Char} : Quoted s text → ScalarText (.string s) text

/-- What comes behind the value `v` must not continue it, which matters for numbers only. -/
def Ends (v : Json) (rest : List Char) : Prop := v.shape = .number → EndsNumber rest

theorem scanScalar_append {v : Json} {text rest : List Char} (h : ScalarText v text)
    (hrest : v.Ends rest) :
    scanScalar (text ++ rest) = .ok (v, rest) := by
  cases h with
  | null => rfl
  | bool b => cases b <;> rfl
  | @number n _ hnumber =>
      have hscan := scanNumber_append hnumber (hrest rfl)
      obtain ⟨c, tail, rfl, hc⟩ := hnumber.exists_cons
      rw [List.cons_append] at hscan ⊢
      rw [scanScalar, if_neg (hc.ne (by decide)), if_neg (hc.ne (by decide)),
        if_neg (hc.ne (by decide)), if_neg (hc.ne (by decide)),
        if_pos (by simpa [StartsNumber] using hc), hscan]
      rfl
  | @string s _ hquoted =>
      obtain ⟨hchars⟩ := hquoted
      rw [List.cons_append, List.cons_append, List.append_assoc, scanScalar, if_neg (by decide),
        if_neg (by decide), if_neg (by decide), if_pos rfl, List.singleton_append,
        scanString_append hchars]
      simp [Except.map]

theorem exists_of_scanWord {v w : Json} {c : Char} {word text rest : List Char}
    (h : (scanWord word text).map (w, ·) = .ok (v, rest)) :
    v = w ∧ c :: text = (c :: word) ++ rest := by
  obtain ⟨rest', hscan, heq⟩ := map_eq_ok_iff.1 h
  cases heq
  exact ⟨rfl, by rw [scanWord_eq_ok_iff.1 hscan, List.cons_append]⟩

theorem exists_of_scanScalar {v : Json} {text rest : List Char}
    (h : scanScalar text = .ok (v, rest)) :
    ∃ written, ScalarText v written ∧ text = written ++ rest := by
  unfold scanScalar at h
  split at h
  next => cases h
  next c tail =>
    split at h
    next hc =>
      obtain ⟨rfl, heq⟩ := @exists_of_scanWord _ _ c _ _ _ h
      exact ⟨_, .null, by rw [heq, hc]; rfl⟩
    split at h
    next hc =>
      obtain ⟨rfl, heq⟩ := @exists_of_scanWord _ _ c _ _ _ h
      exact ⟨_, .bool true, by rw [heq, hc]; rfl⟩
    split at h
    next hc =>
      obtain ⟨rfl, heq⟩ := @exists_of_scanWord _ _ c _ _ _ h
      exact ⟨_, .bool false, by rw [heq, hc]; rfl⟩
    split at h
    next hc =>
      obtain ⟨⟨s, rest'⟩, hscan, heq⟩ := map_eq_ok_iff.1 h
      obtain ⟨quoted, hquoted, hsplit⟩ := scanString_eq_ok_iff.1 hscan
      cases heq
      exact ⟨quoted, .string hquoted, by rw [hc, hsplit]⟩
    split at h
    · obtain ⟨⟨n, rest'⟩, hscan, heq⟩ := map_eq_ok_iff.1 h
      obtain ⟨written, hnumber, hsplit⟩ := exists_of_scanNumber hscan
      cases heq
      exact ⟨written, .number hnumber, hsplit⟩
    · cases h

/-- What a scalar begins with is no blank and neither opens nor closes anything. -/
theorem ScalarText.exists_cons {v : Json} {text : List Char} (h : ScalarText v text) :
    ∃ c tail, text = c :: tail ∧ isBlank c = false ∧ c ∉ ['[', ']', '\x7b'] := by
  cases h with
  | null => exact ⟨'n', _, rfl, by decide⟩
  | bool b =>
      cases b with
      | true => exact ⟨'t', _, rfl, by decide⟩
      | false => exact ⟨'f', _, rfl, by decide⟩
  | number hnumber =>
      obtain ⟨c, tail, rfl, hc⟩ := hnumber.exists_cons
      have hne : ∀ d, ¬ StartsNumber d → c ≠ d := fun d => hc.ne
      refine ⟨c, tail, rfl, ?_, ?_⟩
      · simp [isBlank, hne ' ' (by decide), hne '\t' (by decide), hne '\n' (by decide),
          hne '\r' (by decide)]
      · simp [hne '[' (by decide), hne ']' (by decide), hne '\x7b' (by decide)]
  | string hquoted =>
      obtain ⟨hchars⟩ := hquoted
      exact ⟨'"', _, rfl, by decide⟩

/-! ### Values -/

/-- An item of an array, or the value of a member, with the blanks around it.  That `text` is a text
of `value` is up to `Written`. -/
structure ItemText where
  before : List Char
  value : Json
  text : List Char
  after : List Char
  blank_before : Blank before
  blank_after : Blank after

def ItemText.padded (i : ItemText) : List Char := i.before ++ (i.text ++ i.after)

structure NameText where
  before : List Char
  name : String
  text : List Char
  after : List Char
  blank_before : Blank before
  quoted : Quoted name text
  blank_after : Blank after

def NameText.padded (n : NameText) : List Char := n.before ++ (n.text ++ (n.after ++ [':']))

structure MemberText where
  label : NameText
  item : ItemText

def MemberText.padded (m : MemberText) : List Char := m.label.padded ++ m.item.padded

def MemberText.member (m : MemberText) : String × Json := (m.label.name, m.item.value)

def commas (texts : List (List Char)) : List Char := texts.flatMap (· ++ [','])

/-- A value and its characters, from the first to the last.  Items and members are written with
blanks around them, and of several members with one name the last one counts. -/
inductive Written : Json → List Char → Prop
  | scalar {v : Json} {text : List Char} : ScalarText v text → Written v text
  | emptyArray {gap : List Char} : Blank gap → Written (.array []) ('[' :: (gap ++ [']']))
  | array {items : List ItemText} {last : ItemText} :
      (∀ i ∈ items, Written i.value i.text) → Written last.value last.text →
      Written (.array (items.map ItemText.value ++ [last.value]))
        ('[' :: (commas (items.map ItemText.padded) ++ (last.padded ++ [']'])))
  | emptyObject {gap : List Char} : Blank gap → Written (.object []) ('\x7b' :: (gap ++ ['\x7d']))
  | object {texts : List MemberText} {last : MemberText} {members : Members Json} :
      (∀ m ∈ texts, Written m.item.value m.item.text) → Written last.item.value last.item.text →
      Members.Sorted members →
      (∀ name, Members.find? members name
        = Members.find? (texts.map MemberText.member ++ [last.member]).reverse name) →
      Written (.object members)
        ('\x7b' :: (commas (texts.map MemberText.padded) ++ (last.padded ++ ['\x7d'])))

/-- A text that holds a value and otherwise only blanks. -/
def Renders (v : Json) (text : List Char) : Prop :=
  ∃ i : ItemText, i.value = v ∧ Written v i.text ∧ text = i.padded

/-- What a value begins with is no blank and does not close an array. -/
theorem Written.exists_cons {v : Json} {text : List Char} (h : Written v text) :
    ∃ c tail, text = c :: tail ∧ isBlank c = false ∧ c ≠ ']' := by
  cases h with
  | scalar hscalar =>
      obtain ⟨c, tail, rfl, hblank, hc⟩ := hscalar.exists_cons
      exact ⟨c, tail, rfl, hblank, fun heq => hc (by simp [heq])⟩
  | emptyArray => exact ⟨'[', _, rfl, by decide⟩
  | array => exact ⟨'[', _, rfl, by decide⟩
  | emptyObject => exact ⟨'\x7b', _, rfl, by decide⟩
  | object => exact ⟨'\x7b', _, rfl, by decide⟩

theorem ItemText.exists_padded_append {i : ItemText} (h : Written i.value i.text)
    (rest : List Char) :
    ∃ c tail, i.padded ++ rest = i.before ++ c :: tail ∧ isBlank c = false ∧ c ≠ ']' := by
  obtain ⟨c, tail, htext, hc⟩ := h.exists_cons
  exact ⟨c, tail ++ (i.after ++ rest), by simp [padded, htext], hc⟩

theorem skipBlanks_padded_append {i : ItemText} (h : Written i.value i.text) (rest : List Char) :
    skipBlanks (i.padded ++ rest) = i.text ++ (i.after ++ rest) := by
  obtain ⟨c, tail, htext, hc, -⟩ := h.exists_cons
  rw [ItemText.padded, List.append_assoc, List.append_assoc, skipBlanks_append i.blank_before,
    htext, List.cons_append, skipBlanks_cons hc]

end Arborist.Json
