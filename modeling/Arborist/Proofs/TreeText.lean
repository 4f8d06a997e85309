import Arborist.Proofs.DecodeErrors
import Arborist.Proofs.JsonReader

/-!
# Trees from texts

A text describes the tree of the value that it is a way to write (`Json.Renders`).  So the decoding
of a text depends on nothing but that value, and it fails with an error of the text itself only if
the text writes no value.

A tree is an object, and the text of an object shows where it ends: behind its last brace there are
only blanks, and no text that stops in front of that brace is one of a value.
-/

namespace Arborist

namespace Json

/-- The values of a text have their members in order. -/
theorem Written.wellFormed {v : Json} {text : List Char} (h : Written v text) : v.WellFormed := by
  induction h with
  | scalar hscalar =>
      cases hscalar with
      | null => exact .null
      | bool b => exact .bool b
      | number => exact .number _
      | string => exact .string _
  | emptyArray => exact .array (by simp)
  | array _ _ ihitems ihlast =>
      apply WellFormed.array
      intro v hv
      rcases List.mem_append.1 hv with hv | hv
      · obtain ⟨i, hi, rfl⟩ := List.mem_map.1 hv
        exact ihitems i hi
      · rw [List.mem_singleton.1 hv]
        exact ihlast
  | emptyObject => exact .object .nil (by simp)
  | @object texts last members _ _ hsorted hfind ihtexts ihlast =>
      apply WellFormed.object hsorted
      intro m hm
      -- What stands in the object has been found among the members of the text.
      have hmem := Members.mem_of_find? ((hfind m.1).symm.trans (hsorted.find?_of_mem hm))
      rcases List.mem_append.1 (List.mem_reverse.1 hmem) with hmem | hmem
      · obtain ⟨text, htext, heq⟩ := List.mem_map.1 hmem
        rw [← congrArg Prod.snd heq]
        exact ihtexts text htext
      · rw [congrArg Prod.snd (List.mem_singleton.1 hmem)]
        exact ihlast

theorem Renders.wellFormed {v : Json} {text : List Char} (h : v.Renders text) : v.WellFormed := by
  obtain ⟨i, -, hi, -⟩ := h
  exact hi.wellFormed

theorem ends_of_shape_ne {v : Json} (h : v.shape ≠ .number) (rest : List Char) : v.Ends rest :=
  fun hnumber => absurd hnumber h

/-- Where the first value of a text ends does not depend on how it is looked at. -/
theorem padded_append_inj {i j : ItemText} {rest rest' : List Char} (hi : Written i.value i.text)
    (hj : Written j.value j.text) (hirest : i.value.Ends (i.after ++ rest))
    (hjrest : j.value.Ends (j.after ++ rest')) (h : i.padded ++ rest = j.padded ++ rest') :
    i.value = j.value ∧ i.after ++ rest = j.after ++ rest' := by
  have hrun := run_append hi hirest
  rw [h, run_append hj hjrest] at hrun
  obtain ⟨hvalue, hafter⟩ := Prod.mk.inj (Except.ok.inj hrun)
  exact ⟨hvalue.symm, hafter.symm⟩

/-! ### The end of an object -/

/-- The text of an object runs from brace to brace. -/
theorem Written.exists_braces {members : Members Json} {text : List Char}
    (h : Written (.object members) text) :
    ∃ body, text = '\x7b' :: (body ++ ['\x7d']) := by
  cases h with
  | scalar hscalar => cases hscalar
  | emptyObject => exact ⟨_, rfl⟩
  | object => exact ⟨_, by rw [List.append_assoc]⟩

/-- What begins with a brace is no number. -/
theorem Written.shape_ne_of_brace {v : Json} {tail : List Char} (h : Written v ('\x7b' :: tail)) :
    v.shape ≠ .number := by
  intro hnumber
  cases h with
  | scalar hscalar =>
      obtain ⟨c, tail', heq, -, hc⟩ := hscalar.exists_cons
      cases heq
      exact hc (by simp)
  | emptyObject => cases hnumber
  | object => cases hnumber

theorem renders_append_iff {v w : Json} {text more : List Char} (h : v.Renders text)
    (hv : v.shape ≠ .number) :
    w.Renders (text ++ more) ↔ Blank more ∧ w = v := by
  obtain ⟨i, rfl, hi, rfl⟩ := h
  constructor
  · intro hw
    obtain ⟨j, rfl, hj, hpadded⟩ := hw
    rw [← List.append_nil j.padded] at hpadded
    obtain ⟨hvalue, hafter⟩ := padded_append_inj hi hj (ends_of_shape_ne hv _)
      (ends_after j) hpadded
    refine ⟨fun c hc => ?_, hvalue.symm⟩
    apply j.blank_after
    rw [← List.append_nil j.after, ← hafter]
    exact List.mem_append_right _ hc
  · intro hmore
    obtain ⟨hmore, rfl⟩ := hmore
    refine ⟨⟨i.before, i.value, i.text, i.after ++ more, i.blank_before,
      i.blank_after.append hmore⟩, rfl, hi, ?_⟩
    simp [ItemText.padded]

/-- Nothing that stops in front of the last brace of an object is the text of a value. -/
theorem not_renders_of_cut {i : ItemText} (hi : Written i.value i.text) {body tail : List Char}
    (hbraces : i.text = '\x7b' :: (body ++ ['\x7d'])) {cut : List Char}
    (hcut : i.before ++ '\x7b' :: body = cut ++ tail) (v : Json) : ¬ v.Renders cut := by
  intro h
  obtain ⟨j, rfl, hj, rfl⟩ := h
  have hpadded : i.padded ++ [] = j.padded ++ (tail ++ '\x7d' :: i.after) := by
    calc
      i.padded ++ [] = (i.before ++ '\x7b' :: body) ++ '\x7d' :: i.after :=
        by simp [ItemText.padded, hbraces]
      _ = j.padded ++ (tail ++ '\x7d' :: i.after) := by rw [hcut, List.append_assoc]
  have hbrace : j.value.shape ≠ .number := by
    -- Both texts begin with the same character, and the first one is that of an object.
    have hskip := congrArg skipBlanks hpadded
    rw [skipBlanks_padded_append hi, skipBlanks_padded_append hj, hbraces] at hskip
    obtain ⟨c, tail', htext, -⟩ := hj.exists_cons
    rw [htext, List.cons_append, List.cons_append, List.cons.injEq] at hskip
    rw [htext, ← hskip.1] at hj
    exact hj.shape_ne_of_brace
  -- Then the two values end at the same place, but there is a brace between the ends.
  obtain ⟨-, hafter⟩ := padded_append_inj hi hj (ends_after i) (ends_of_shape_ne hbrace _) hpadded
  have hlength := congrArg List.length hafter
  simp only [List.length_append, List.length_cons, List.length_nil] at hlength
  omega

end Json

namespace Node

/-! ### Decoding a text -/

theorem parse_of_renders {v : Json} {text : String} (h : v.Renders text.toList) :
    parse text = ofJson v := by
  rw [parse, Json.parse, Json.readAll_eq_ok_iff.2 h]

theorem exists_renders_of_parse {text : String} {n : Node} (h : parse text = .ok n) :
    ∃ v : Json, v.Renders text.toList ∧ ofJson v = .ok n := by
  unfold parse Json.parse at h
  split at h
  next v hread =>
    split at hread
    next w hread' =>
      cases hread
      exact ⟨v, Json.readAll_eq_ok_iff.1 hread', h⟩
    next => cases hread
  next => cases h

theorem exists_parse_eq_json_iff {text : String} :
    (∃ fault, parse text = .error (.json fault)) ↔ ∀ v : Json, ¬ v.Renders text.toList := by
  constructor
  · intro h v hv
    obtain ⟨fault, hfault⟩ := h
    rw [parse_of_renders hv, ofJson_eq_error_iff hv.wellFormed] at hfault
    cases hfault
  · intro h
    cases hread : Json.readAll text.toList with
    | ok v => exact absurd (Json.readAll_eq_ok_iff.1 hread) (h v)
    | error halt => exact ⟨halt.fault text.toList, by rw [parse, Json.parse, hread]⟩

/-- A text decodes as the value that it is a way to write: to the same node, or with the same
error. -/
theorem text_decodes_as_its_value {v : Json} {text : String} (h : v.Renders text.toList) :
    parse text = ofJson v ∧ ∀ fault, parse text ≠ .error (.json fault) := by
  refine ⟨parse_of_renders h, fun fault hfault => ?_⟩
  exact exists_parse_eq_json_iff.1 ⟨fault, hfault⟩ v h

end Node

def smiling : Json := .object [("name", .string "😀\n"), ("type", .string "Identifier")]

def smilingText : String :=
  "\t\x7b\"name\" : -1,\r\n\"type\":\"\\u0049dentifier\" , \"name\":\"\\ud83d\\uDE00\\n\"\x7d\n"

def smilingNode : Node := ⟨.identifier, none, [], [("name", .string "😀\n")], none⟩

section Smiling

open Json

theorem quoted_identifier : Quoted "Identifier" "\"\\u0049dentifier\"".toList := by
  have hcode : Code 'I' "0049".toList :=
    .single (@FourHex.digits 0 0 4 9 _ _ _ _ (by decide) (by decide) (by decide) (by decide))
  have hrest : Chars "dentifier".toList "dentifier".toList := .plain (by decide)
  exact @Quoted.quotes "Identifier" _ (.escape (.code hcode) hrest)

theorem quoted_smile : Quoted "😀\n" "\"\\ud83d\\uDE00\\n\"".toList := by
  have hleading : FourHex 0xD83D "d83d".toList :=
    @FourHex.digits 13 8 3 13 _ _ _ _ (by decide) (by decide) (by decide) (by decide)
  have htrailing : FourHex 0xDE00 "DE00".toList :=
    @FourHex.digits 13 14 0 0 _ _ _ _ (by decide) (by decide) (by decide) (by decide)
  have hpair : Code '😀' "d83d\\uDE00".toList :=
    .pair hleading (by decide) (by decide) htrailing (by decide) (by decide) (by decide)
  exact @Quoted.quotes "😀\n" _ (.escape (.code hpair) (.escape (.letter (by decide)) .nil))

theorem renders_smiling : smiling.Renders smilingText.toList := by
  have hname : Quoted "name" "\"name\"".toList := .quotes (.plain (by decide))
  have htype : Quoted "type" "\"type\"".toList := .quotes (.plain (by decide))
  have hnumber : Written (.number (.integer (-1))) "-1".toList :=
    .scalar (.number (.integer (by decide) (by decide)))
  have hfind : ∀ name, Members.find? [("name", Json.string "😀\n"),
      ("type", .string "Identifier")] name
      = Members.find? [("name", .string "😀\n"), ("type", .string "Identifier"),
          ("name", .number (.integer (-1)))] name := by
    intro name
    by_cases hlast : name = "name" <;> simp [Members.find?_cons, Members.find?_nil, hlast]
  have hobject := @Written.object
    [⟨⟨[], "name", _, [' '], by decide, hname, by decide⟩, ⟨[' '], _, _, [], by decide, by decide⟩⟩,
      ⟨⟨['\r', '\n'], "type", _, [], by decide, htype, by decide⟩,
        ⟨[], _, _, [' '], by decide, by decide⟩⟩]
    ⟨⟨[' '], "name", _, [], by decide, hname, by decide⟩, ⟨[], _, _, [], by decide, by decide⟩⟩ _
    (List.forall_mem_cons.2 ⟨hnumber, List.forall_mem_singleton.2
      (.scalar (.string quoted_identifier))⟩)
    (.scalar (.string quoted_smile)) (by decide) hfind
  exact ⟨⟨['\t'], smiling, _, ['\n'], by decide, by decide⟩, rfl, hobject, rfl⟩

end Smiling

theorem text_decodes_as_its_value_smiling :
    smiling.Renders smilingText.toList ∧ Node.parse smilingText = Node.ofJson smiling ∧
      ∀ fault, Node.parse smilingText ≠ .error (.json fault) :=
  ⟨renders_smiling, Node.text_decodes_as_its_value renders_smiling⟩

/-- The text of a tree can be continued by blanks only, which change nothing, and the tree ends at
the last brace.  A text that goes on with anything but blanks is no JSON text, and neither is one
that is cut off in front of that brace. -/
theorem Node.accepted_text_ends_at_its_brace {text : String} {n : Node}
    (h : Node.parse text = .ok n) :
    (∀ more m, Node.parse (text ++ more) = .ok m ↔
      (∀ c ∈ more.toList, c ∈ [' ', '\t', '\n', '\r']) ∧ m = n) ∧
    (∀ more, (∃ c ∈ more.toList, c ∉ [' ', '\t', '\n', '\r']) →
      ∃ fault, Node.parse (text ++ more) = .error (.json fault)) ∧
    ∃ body tail, text = body ++ "\x7d" ++ tail ∧ (∀ c ∈ tail.toList, c ∈ [' ', '\t', '\n', '\r']) ∧
      ∀ cut rest, body = cut ++ rest → ∃ fault, Node.parse cut = .error (.json fault) := by
  obtain ⟨v, hv, hn⟩ := exists_renders_of_parse h
  obtain ⟨members, rfl⟩ := exists_members_of_ofJson hn
  have hmore : ∀ (more : String) (w : Json), w.Renders (text ++ more).toList ↔
      (∀ c ∈ more.toList, c ∈ [' ', '\t', '\n', '\r']) ∧ w = .object members := by
    intro more w
    rw [String.toList_append, Json.renders_append_iff hv (by simp [Json.shape]), Json.blank_iff]
  refine ⟨fun more m => ?_, fun more hchar => ?_, ?_⟩
  · constructor
    · intro hm
      obtain ⟨w, hw, hwm⟩ := exists_renders_of_parse hm
      obtain ⟨hblank, rfl⟩ := (hmore more w).1 hw
      rw [hn] at hwm
      exact ⟨hblank, (Except.ok.inj hwm).symm⟩
    · intro hm
      obtain ⟨hblank, rfl⟩ := hm
      rw [parse_of_renders ((hmore more _).2 ⟨hblank, rfl⟩), hn]
  · apply exists_parse_eq_json_iff.2
    intro w hw
    obtain ⟨c, hc, hne⟩ := hchar
    exact hne (((hmore more w).1 hw).1 c hc)
  · obtain ⟨i, hvalue, hi, htext⟩ := hv
    obtain ⟨body, hbraces⟩ := hi.exists_braces
    refine ⟨String.ofList (i.before ++ '\x7b' :: body), String.ofList i.after, ?_, ?_, ?_⟩
    · apply String.toList_inj.1
      simp [htext, Json.ItemText.padded, hbraces]
    · simpa using Json.blank_iff.1 i.blank_after
    · intro cut rest hcut
      apply exists_parse_eq_json_iff.2
      apply Json.not_renders_of_cut (hvalue ▸ hi) hbraces
      have hlist := congrArg String.toList hcut
      rwa [String.toList_ofList, String.toList_append] at hlist

theorem ofJson_smiling : Node.ofJson smiling = .ok smilingNode := by
  have hattributes : Members.ofList [("name", Json.string "😀\n")] = [("name", .string "😀\n")] :=
    Members.ofList_eq_of_perm (.refl _) (List.pairwise_singleton _ _)
  refine Node.ofJson_eq_ok_iff.2 ⟨_, rfl, rfl, rfl,
    ⟨[.attribute "name" (.string "😀\n")], ?_, rfl, hattributes.symm⟩, rfl⟩
  exact .cons (.keep rfl (by decide) (by simp [Json.shape])) .nil

theorem accepted_text_ends_at_its_brace_smiling :
    Node.parse smilingText = .ok smilingNode ∧ Node.parse (smilingText ++ "\r ") = .ok smilingNode ∧
      (∃ fault, Node.parse (smilingText ++ "\x7d") = .error (.json fault)) ∧
      ∃ body tail, smilingText = body ++ "\x7d" ++ tail ∧
        (∀ c ∈ tail.toList, c ∈ [' ', '\t', '\n', '\r']) ∧
        ∀ cut rest, body = cut ++ rest → ∃ fault, Node.parse cut = .error (.json fault) := by
  have hparse : Node.parse smilingText = .ok smilingNode := by
    rw [Node.parse_of_renders renders_smiling, ofJson_smiling]
  obtain ⟨hmore, hrefused, hcut⟩ := Node.accepted_text_ends_at_its_brace hparse
  exact ⟨hparse, (hmore _ _).2 ⟨by simp, rfl⟩, hrefused _ ⟨'\x7d', by decide, by decide⟩, hcut⟩

end Arborist
