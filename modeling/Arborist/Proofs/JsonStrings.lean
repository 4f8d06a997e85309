import Arborist.Json.Scalar
import Arborist.Proofs.Failing
import Mathlib.Data.List.TakeWhile
import Mathlib.Tactic.IntervalCases

/-!
# Blanks, words and strings of a JSON text

What may stand in a JSON text is said here by relations between a value and the characters it is
written with, and not by a scanner: a character of a string may be written as it is, by a letter
behind a backslash, by its number, or by the numbers of a pair of surrogates.  Each scanner has one
lemma, which says that it reads what is written so and nothing else.
-/

namespace Arborist.Json

/-! ### Blanks -/

def Blank (text : List Char) : Prop := ∀ c ∈ text, isBlank c = true

instance (text : List Char) : Decidable (Blank text) :=
  List.decidableBAll _ text

theorem blank_nil : Blank [] := by
  intro c hc
  cases hc

theorem Blank.append {s t : List Char} (hs : Blank s) (ht : Blank t) : Blank (s ++ t) := by
  intro c hc
  rcases List.mem_append.1 hc with hc | hc
  · exact hs c hc
  · exact ht c hc

theorem blank_iff {text : List Char} : Blank text ↔ ∀ c ∈ text, c ∈ [' ', '\t', '\n', '\r'] := by
  simp [Blank, isBlank, or_assoc]

theorem skipBlanks_append {before : List Char} (h : Blank before) (text : List Char) :
    skipBlanks (before ++ text) = skipBlanks text :=
  List.dropWhile_append_of_pos h

theorem skipBlanks_cons {c : Char} (h : isBlank c = false) (text : List Char) :
    skipBlanks (c :: text) = c :: text := by
  rw [skipBlanks, List.dropWhile_cons_of_neg (by simp [h])]

theorem skipBlanks_eq_nil_iff {text : List Char} : skipBlanks text = [] ↔ Blank text :=
  List.dropWhile_eq_nil_iff

/-- The blanks in front of the first other character are skipped. -/
theorem exists_of_skipBlanks {text rest : List Char} {c : Char} (h : skipBlanks text = c :: rest) :
    isBlank c = false ∧ ∃ before, Blank before ∧ text = before ++ c :: rest := by
  constructor
  · have hhead := List.head?_dropWhile_not isBlank text
    rw [show text.dropWhile isBlank = c :: rest from h] at hhead
    simpa using hhead
  · refine ⟨text.takeWhile isBlank, fun _ hc => List.mem_takeWhile_imp hc, ?_⟩
    rw [← h, skipBlanks, List.takeWhile_append_dropWhile]

/-! ### Words -/

theorem scanWord_eq_ok_iff {word text rest : List Char} :
    scanWord word text = .ok rest ↔ text = word ++ rest := by
  fun_induction scanWord word text with
  | case1 text => exact ⟨Except.ok.inj, congrArg Except.ok⟩
  | case2 => simp
  | case3 word w text ih => simp [ih]
  | case4 w word c text h => simp [h]

/-! ### Escapes -/

def HexDigit (n : Nat) (c : Char) : Prop :=
  "0123456789abcdef".toList[n]? = some c ∨ "0123456789ABCDEF".toList[n]? = some c

instance (n : Nat) (c : Char) : Decidable (HexDigit n c) :=
  inferInstanceAs (Decidable (_ ∨ _))

theorem HexDigit.lt {n : Nat} {c : Char} (h : HexDigit n c) : n < 16 := by
  rcases h with h | h
  · exact (List.getElem?_eq_some_iff.1 h).1
  · exact (List.getElem?_eq_some_iff.1 h).1

theorem toNat_lt_of_hexValue? {c : Char} {n : Nat} (h : hexValue? c = some n) : c.toNat < 103 := by
  unfold hexValue? at h
  split at h
  next hrange =>
    have hle : c.toNat ≤ 57 := hrange.2
    omega
  next =>
    split at h
    next hrange =>
      exact Nat.lt_succ_of_le hrange.2
    next =>
      split at h
      next hrange =>
        have hle : c.toNat ≤ 70 := hrange.2
        omega
      next => cases h

theorem hexValue?_eq_some_iff {c : Char} {n : Nat} : hexValue? c = some n ↔ HexDigit n c := by
  constructor
  · intro h
    have hall : ∀ k < 103, ∀ m ∈ hexValue? (Char.ofNat k), HexDigit m (Char.ofNat k) :=
      by decide +kernel
    have hc := hall c.toNat (toNat_lt_of_hexValue? h)
    rw [Char.ofNat_toNat] at hc
    exact hc n h
  · intro h
    have hn := h.lt
    interval_cases n <;> rcases h with h | h <;> cases h <;> rfl

inductive FourHex : Nat → List Char → Prop
  | digits {p q r s : Nat} {a b c d : Char} : HexDigit p a → HexDigit q b → HexDigit r c →
      HexDigit s d →
      FourHex (((p * 16 + q) * 16 + r) * 16 + s) [a, b, c, d]

theorem FourHex.lt {n : Nat} {digits : List Char} (h : FourHex n digits) : n < 0x10000 := by
  obtain ⟨hp, hq, hr, hs⟩ := h
  have := hp.lt
  have := hq.lt
  have := hr.lt
  have := hs.lt
  omega

theorem scanFourHex_append {n : Nat} {digits : List Char} (h : FourHex n digits)
    (rest : List Char) :
    scanFourHex (digits ++ rest) = .ok (n, rest) := by
  obtain ⟨hp, hq, hr, hs⟩ := h
  simp only [← hexValue?_eq_some_iff] at hp hq hr hs
  simp [scanFourHex, hp, hq, hr, hs]

theorem exists_of_scanFourHex {n : Nat} {text rest : List Char}
    (h : scanFourHex text = .ok (n, rest)) :
    ∃ digits, FourHex n digits ∧ text = digits ++ rest := by
  unfold scanFourHex at h
  split at h
  next a b c d tail =>
    split at h
    next hp hq hr hs =>
      cases h
      simp only [hexValue?_eq_some_iff] at hp hq hr hs
      exact ⟨[a, b, c, d], .digits hp hq hr hs, rfl⟩
    next => cases h
  next => split at h <;> cases h

/-- The number of the character `c`, or the numbers of the two surrogates that stand for it; the
second number has a mark of its own. -/
inductive Code : Char → List Char → Prop
  | single {c : Char} {digits : List Char} : FourHex c.toNat digits → Code c digits
  | pair {c : Char} {high low : Nat} {leading trailing : List Char} :
      FourHex high leading → 0xD800 ≤ high → high ≤ 0xDBFF →
      FourHex low trailing → 0xDC00 ≤ low → low ≤ 0xDFFF →
      c.toNat = 0x10000 + (high - 0xD800) * 0x400 + (low - 0xDC00) →
      Code c (leading ++ '\\' :: 'u' :: trailing)

/-- The number of a character is never that of a surrogate. -/
theorem not_surrogate (c : Char) : c.toNat < 0xD800 ∨ 0xDFFF < c.toNat := by
  rcases c.valid with h | h
  · exact .inl h
  · exact .inr h.1

theorem scanTrailingSurrogate_append {c : Char} {high low : Nat} {trailing : List Char}
    (hlow : FourHex low trailing) (hge : 0xDC00 ≤ low) (hle : low ≤ 0xDFFF)
    (hc : c.toNat = 0x10000 + (high - 0xD800) * 0x400 + (low - 0xDC00)) (rest : List Char) :
    scanTrailingSurrogate high ('\\' :: 'u' :: trailing ++ rest) = .ok (c, rest) := by
  have hsurrogate : isTrailingSurrogate low = true := by simp [isTrailingSurrogate, hge, hle]
  have hcode : Char.ofNat ((high - 0xD800) * 0x400 + (low - 0xDC00) + 0x10000) = c := by
    rw [Nat.add_comm, ← Nat.add_assoc, ← hc, Char.ofNat_toNat]
  simp only [List.cons_append, scanTrailingSurrogate, scanFourHex_append hlow, bind, Except.bind,
    hsurrogate, if_true, hcode]
  rfl

theorem exists_of_scanTrailingSurrogate {c : Char} {high : Nat} {text rest : List Char}
    (hge : 0xD800 ≤ high)
    (hle : high ≤ 0xDBFF) (h : scanTrailingSurrogate high text = .ok (c, rest)) :
    ∃ low trailing, FourHex low trailing ∧ 0xDC00 ≤ low ∧ low ≤ 0xDFFF
      ∧ c.toNat = 0x10000 + (high - 0xD800) * 0x400 + (low - 0xDC00)
      ∧ text = '\\' :: 'u' :: trailing ++ rest := by
  unfold scanTrailingSurrogate at h
  split at h
  · obtain ⟨⟨low, tail⟩, hdigits, hcode⟩ := bind_eq_ok_iff.1 h
    obtain ⟨trailing, hlow, rfl⟩ := exists_of_scanFourHex hdigits
    simp only at hcode
    split at hcode
    next hsurrogate =>
      simp only [isTrailingSurrogate, Bool.and_eq_true, decide_eq_true_eq] at hsurrogate
      obtain ⟨rfl, rfl⟩ := Prod.mk.inj (Except.ok.inj hcode)
      refine ⟨low, trailing, hlow, hsurrogate.1, hsurrogate.2, ?_, rfl⟩
      have hvalid : ((high - 0xD800) * 0x400 + (low - 0xDC00) + 0x10000).isValidChar :=
        .inr (by omega)
      rw [Char.ofNat, dif_pos hvalid]
      exact (Nat.add_comm _ _).trans (Nat.add_assoc _ _ _).symm
    next => cases hcode
  all_goals cases h

theorem scanCode_append {c : Char} {written : List Char} (h : Code c written) (rest : List Char) :
    scanCode (written ++ rest) = .ok (c, rest) := by
  cases h with
  | single hdigits =>
      have htrailing : isTrailingSurrogate c.toNat = false := by
        have := not_surrogate c
        simp only [isTrailingSurrogate, Bool.and_eq_false_iff, decide_eq_false_iff_not]
        omega
      have hleading : isLeadingSurrogate c.toNat = false := by
        have := not_surrogate c
        simp only [isLeadingSurrogate, Bool.and_eq_false_iff, decide_eq_false_iff_not]
        omega
      simp [scanCode, scanFourHex_append hdigits, bind, Except.bind, htrailing, hleading, pure,
        Except.pure]
  | @pair high low leading trailing hhigh hge hle hlow hlowge hlowle hc =>
      have htrailing : isTrailingSurrogate high = false := by
        simp only [isTrailingSurrogate, Bool.and_eq_false_iff, decide_eq_false_iff_not]
        omega
      have hleading : isLeadingSurrogate high = true := by simp [isLeadingSurrogate, hge, hle]
      rw [scanCode, List.append_assoc, scanFourHex_append hhigh]
      simp only [bind, Except.bind, htrailing, hleading, if_true, Bool.false_eq_true, if_false]
      exact scanTrailingSurrogate_append hlow hlowge hlowle hc rest

theorem exists_of_scanCode {c : Char} {text rest : List Char} (h : scanCode text = .ok (c, rest)) :
    ∃ written, Code c written ∧ text = written ++ rest := by
  obtain ⟨⟨n, tail⟩, hdigits, hcode⟩ := bind_eq_ok_iff.1 h
  obtain ⟨digits, hn, rfl⟩ := exists_of_scanFourHex hdigits
  have hlt := hn.lt
  simp only at hcode
  split at hcode
  next => cases hcode
  next htrailing =>
    split at hcode
    next hleading =>
      simp only [isLeadingSurrogate, Bool.and_eq_true, decide_eq_true_eq] at hleading
      obtain ⟨low, trailing, hlow, hge, hle, hc, rfl⟩ :=
        exists_of_scanTrailingSurrogate hleading.1 hleading.2 hcode
      exact ⟨_, .pair hn hleading.1 hleading.2 hlow hge hle hc, by simp⟩
    next hleading =>
      simp only [isTrailingSurrogate, isLeadingSurrogate, Bool.and_eq_true,
        decide_eq_true_eq] at htrailing hleading
      cases hcode
      have hvalid : n < 0xD800 ∨ 0xDFFF < n ∧ n < 0x110000 := by omega
      refine ⟨digits, .single ?_, rfl⟩
      rw [Char.ofNat, dif_pos hvalid]
      exact hn

def escapeLetters : List (Char × Char) :=
  [('"', '"'), ('\\', '\\'), ('/', '/'), ('b', '\x08'), ('f', '\x0c'), ('n', '\n'), ('r', '\r'),
    ('t', '\t')]

theorem escaped?_eq_some_iff {letter c : Char} :
    escaped? letter = some c ↔ (letter, c) ∈ escapeLetters := by
  constructor
  · intro h
    unfold escaped? at h
    split at h <;> cases h <;> decide
  · intro h
    simp only [escapeLetters, List.mem_cons, Prod.mk.injEq, List.not_mem_nil, or_false] at h
    rcases h with h | h | h | h | h | h | h | h <;> obtain ⟨rfl, rfl⟩ := h <;> rfl

inductive Escape : Char → List Char → Prop
  | letter {letter c : Char} : (letter, c) ∈ escapeLetters → Escape c [letter]
  | code {c : Char} {written : List Char} : Code c written → Escape c ('u' :: written)

theorem scanEscape_append {c : Char} {written : List Char} (h : Escape c written)
    (rest : List Char) :
    scanEscape (written ++ rest) = .ok (c, rest) := by
  cases h with
  | @letter l _ hletter =>
      have hne : l ≠ 'u' := by
        intro heq
        subst heq
        simp [escapeLetters] at hletter
      simp [scanEscape, hne, escaped?_eq_some_iff.2 hletter]
  | code hcode =>
      rw [List.cons_append, scanEscape, if_pos rfl, scanCode_append hcode]

theorem exists_of_scanEscape {c : Char} {text rest : List Char}
    (h : scanEscape text = .ok (c, rest)) :
    ∃ written, Escape c written ∧ text = written ++ rest := by
  unfold scanEscape at h
  split at h
  next => cases h
  next letter tail =>
    split at h
    next heq =>
      obtain ⟨written, hcode, rfl⟩ := exists_of_scanCode h
      exact ⟨'u' :: written, .code hcode, by rw [heq, List.cons_append]⟩
    next =>
      split at h
      next hletter =>
        cases h
        exact ⟨[letter], .letter (escaped?_eq_some_iff.1 hletter), rfl⟩
      next => cases h

/-! ### Strings -/

/-- Characters as they may stand between quotes.  A quote, a backslash and a control character are
not written as they are, but as an `Escape`. -/
inductive Chars : List Char → List Char → Prop
  | nil : Chars [] []
  | raw {c : Char} {cs text : List Char} :
      c ≠ '"' → c ≠ '\\' → 0x20 ≤ c.toNat → Chars cs text → Chars (c :: cs) (c :: text)
  | escape {c : Char} {cs written text : List Char} :
      Escape c written → Chars cs text → Chars (c :: cs) ('\\' :: written ++ text)

/-- Characters that need no escape may be written as they are. -/
theorem Chars.plain {cs : List Char} (h : cs.all fun c => c ≠ '"' ∧ c ≠ '\\' ∧ 0x20 ≤ c.toNat) :
    Chars cs cs := by
  induction cs with
  | nil => exact .nil
  | cons c cs ih =>
      rw [List.all_cons, Bool.and_eq_true, decide_eq_true_eq] at h
      obtain ⟨⟨hquote, hslash, hcontrol⟩, hcs⟩ := h
      exact .raw hquote hslash hcontrol (ih hcs)

inductive Quoted : String → List Char → Prop
  | quotes {s : String} {text : List Char} : Chars s.toList text → Quoted s ('"' :: text ++ ['"'])

theorem scanString_append {cs text : List Char} (h : Chars cs text) (read rest : List Char) :
    scanString read (text ++ '"' :: rest) = .ok (String.ofList (read.reverse ++ cs), rest) := by
  induction h generalizing read with
  | nil => rw [List.nil_append, scanString, if_pos rfl, List.append_nil]
  | @raw c cs text hquote hslash hcontrol _ ih =>
      rw [List.cons_append, scanString, if_neg hquote, if_neg hslash,
        if_neg (Nat.not_lt.2 hcontrol), ih]
      simp
  | @escape c cs written text hescape _ ih =>
      have hscan : scanEscape (written ++ (text ++ '"' :: rest)) = .ok (c, text ++ '"' :: rest) :=
        scanEscape_append hescape _
      rw [List.cons_append, List.cons_append, List.append_assoc, scanString,
        if_neg (by decide), if_pos rfl]
      split
      next heq =>
        cases hscan.symm.trans heq
        rw [ih]
        simp
      next heq =>
        cases hscan.symm.trans heq

theorem exists_of_scanString {read text rest : List Char} {s : String}
    (h : scanString read text = .ok (s, rest)) :
    ∃ cs body, Chars cs body ∧ text = body ++ '"' :: rest ∧
      s = String.ofList (read.reverse ++ cs) := by
  fun_induction scanString read text with
  | case1 => cases h
  | case2 read tail =>
      cases h
      exact ⟨[], [], .nil, rfl, by rw [List.append_nil]⟩
  | case3 read tail e r hescape _ ih =>
      obtain ⟨cs, body, hcs, rfl, rfl⟩ := ih h
      obtain ⟨written, hwritten, rfl⟩ := exists_of_scanEscape hescape
      exact ⟨e :: cs, '\\' :: written ++ body, .escape hwritten hcs, by simp, by simp⟩
  | case4 => cases h
  | case5 => cases h
  | case6 read c tail hquote hslash hcontrol ih =>
      obtain ⟨cs, body, hcs, rfl, rfl⟩ := ih h
      exact ⟨c :: cs, c :: body, .raw hquote hslash (Nat.not_lt.1 hcontrol) hcs, rfl, by simp⟩

/-- Behind an opening quote the scanner reads exactly what is left of a quoted string. -/
theorem scanString_eq_ok_iff {text rest : List Char} {s : String} :
    scanString [] text = .ok (s, rest) ↔ ∃ quoted, Quoted s quoted ∧
      '"' :: text = quoted ++ rest := by
  constructor
  · intro h
    obtain ⟨cs, body, hcs, rfl, rfl⟩ := exists_of_scanString h
    refine ⟨'"' :: body ++ ['"'], .quotes ?_, by simp⟩
    simpa using hcs
  · intro h
    obtain ⟨_, hquoted, heq⟩ := h
    obtain ⟨hcs⟩ := hquoted
    rw [List.cons_append, List.cons_append, List.append_assoc, List.cons.injEq] at heq
    rw [heq.2, List.singleton_append, scanString_append hcs]
    simp

end Arborist.Json
