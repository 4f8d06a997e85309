import Arborist.Pattern
import Mathlib.Data.List.Forall2
import Mathlib.Data.List.Infix

/-!
# Patterns that stand for a text

Wildcards stand for everything under `Options.standard`, so every letter of a text is
`Letter.plain` then.  A token that stands for one character (`Token.StandsFor`) takes this character
away and nothing else; `leavesNothing_append` says so for a whole word of them.

`Pattern.escape` writes a text as such a word.  It is read back as one token for each character,
whatever comes after it (`scan_escape`), so that the pattern of an escaped text accepts this text
alone, and with a star in front of it the texts that end in it.
-/

namespace Arborist.Pattern

def Letter.plain (c : Char) : Letter := ⟨c, true, true⟩

theorem letters_standard (first : Bool) (cs : List Char) :
    letters .standard first cs = cs.map .plain := by
  induction cs generalizing first with
  | nil => rfl
  | cons c cs ih => rw [letters, ih, List.map_cons]; rfl

theorem accepts_standard (p : Pattern) (text : String) :
    p.accepts .standard text = leavesNothing p.tokens (text.toList.map .plain) := by
  rw [accepts_eq, letters_standard]

/-! ### Words -/

/-- A token for one character and no other.  `escape` writes the second form where a character would
mean something else in the first. -/
inductive Token.StandsFor : Token → Char → Prop
  | literal (c : Char) : StandsFor (.literal c) c
  | set (c : Char) : StandsFor (.within [.single c]) c

theorem rests_of_standsFor {t : Token} {c : Char} (h : t.StandsFor c) (cs : List Char) :
    t.rests (cs.map .plain) = afterOne (fun l => l.char = c) (cs.map .plain) := by
  cases h with
  | literal => rfl
  | set =>
      cases cs with
      | nil => rfl
      | cons d cs => simp [Token.rests, afterOne, Token.acceptsLetter, Letter.plain, Span.contains]

/-- Tokens that stand for the characters of a word take it away from the beginning of a text. -/
theorem leavesNothing_append {ts : List Token} {word : List Char}
    (h : List.Forall₂ Token.StandsFor ts word) (tokens : List Token) (cs : List Char) :
    leavesNothing (ts ++ tokens) (cs.map .plain) = true ↔
      ∃ rest, cs = word ++ rest ∧ leavesNothing tokens (rest.map .plain) = true := by
  induction h generalizing cs with
  | nil => simp
  | @cons t a ts word hta _ ih =>
      rw [List.cons_append, leavesNothing, rests_of_standsFor hta]
      cases cs with
      | nil => simp [afterOne]
      | cons c cs =>
          rw [List.map_cons, afterOne]
          by_cases hc : c = a
          · simp [Letter.plain, hc, ih]
          · simp [Letter.plain, hc]

theorem leavesNothing_word {ts : List Token} {word : List Char}
    (h : List.Forall₂ Token.StandsFor ts word) (cs : List Char) :
    leavesNothing ts (cs.map .plain) = true ↔ cs = word := by
  have hword := leavesNothing_append h [] cs
  rw [List.append_nil] at hword
  simp [hword, leavesNothing]

theorem scan_cons_of_ne {c : Char} (hstar : c ≠ '*') (hquestion : c ≠ '?') (hbracket : c ≠ '[')
    (position : Nat) (before : Option Char) {rest : List Char} {tokens : List Token}
    (h : scan (position + 1) (some c) rest = .ok tokens) :
    scan position before (c :: rest) = .ok (.literal c :: tokens) := by
  rw [scan, h]
  · rfl
  · simp [hstar]
  · simp [hstar]
  · simp [hstar]
  · simp [hquestion]
  · simp [hbracket]

def Token.ofChar (c : Char) : Token := if isSpecial c then .within [.single c] else .literal c

theorem standsFor_ofChar (c : Char) : (Token.ofChar c).StandsFor c := by
  rw [Token.ofChar]
  split
  · exact .set c
  · exact .literal c

theorem standsFor_map_ofChar (cs : List Char) :
    List.Forall₂ Token.StandsFor (cs.map .ofChar) cs := by
  rw [List.forall₂_map_left_iff, List.forall₂_same]
  exact fun c _ => standsFor_ofChar c

theorem scan_escapeChar (c : Char) {rest : List Char} {tokens : List Token}
    (h : ∀ position before, scan position before rest = .ok tokens) (position : Nat)
    (before : Option Char) :
    scan position before (escapeChar c ++ rest) = .ok (.ofChar c :: tokens) := by
  cases hspecial : isSpecial c with
  | true =>
      have hbang : c ≠ '!' := by
        rintro rfl
        exact absurd hspecial (by decide)
      have hset : scanSet (c :: ']' :: rest) = some ⟨.within [.single c], 2, rest⟩ := by
        rw [scanSet]
        · simp [enclosed, spans]
        · simp [hbang]
      have hescape : escapeChar c ++ rest = '[' :: c :: ']' :: rest := by
        rw [escapeChar, if_pos hspecial]
        rfl
      rw [hescape, scan]
      split
      next hnone => rw [hset] at hnone; cases hnone
      next set hsome =>
        cases hset.symm.trans hsome
        rw [h, Token.ofChar, if_pos hspecial]
        rfl
  | false =>
      have hne : c ≠ '?' ∧ c ≠ '*' ∧ c ≠ '[' := by
        refine ⟨?_, ?_, ?_⟩ <;>
          · rintro rfl
            exact absurd hspecial (by decide)
      rw [escapeChar, Token.ofChar, hspecial]
      exact scan_cons_of_ne hne.2.1 hne.1 hne.2.2 position before (h _ _)

/-- An escaped text is read as one token for each of its characters. -/
theorem scan_escape (cs : List Char) {rest : List Char} {tokens : List Token}
    (h : ∀ position before, scan position before rest = .ok tokens) (position : Nat)
    (before : Option Char) :
    scan position before (cs.flatMap escapeChar ++ rest) = .ok (cs.map .ofChar ++ tokens) := by
  induction cs generalizing position before with
  | nil => exact h position before
  | cons c cs ih =>
      rw [List.flatMap_cons, List.append_assoc, List.map_cons, List.cons_append]
      exact scan_escapeChar c ih position before

theorem scan_nil (position : Nat) (before : Option Char) : scan position before [] = .ok [] := by
  rw [scan]

/-- A star in front of an escaped text is never taken for one of two. -/
theorem scan_star_escape (cs : List Char) (position : Nat) (before : Option Char) :
    scan position before ('*' :: cs.flatMap escapeChar) = .ok (.anyText :: cs.map .ofChar) := by
  have hstar : ∀ rest, cs.flatMap escapeChar ≠ '*' :: rest := by
    intro rest
    cases cs with
    | nil => exact (List.cons_ne_nil _ _).symm
    | cons c cs =>
        rw [List.flatMap_cons, escapeChar]
        split
        next => simp
        next hspecial =>
          intro heq
          obtain ⟨rfl, -⟩ := List.cons.inj heq
          exact hspecial (by decide)
  have hscan := scan_escape cs scan_nil (position + 1) (some '*')
  rw [List.append_nil, List.append_nil] at hscan
  rw [scan, hscan]
  · rfl
  · intro rest heq
    exact hstar _ heq
  · intro rest heq
    exact hstar _ heq

/-! ### A text taken literally -/

/-- The pattern that `escape text` is read as. -/
def exactly (text : String) : Pattern := ⟨text.toList.map .ofChar⟩

def endingIn (text : String) : Pattern := ⟨.anyText :: text.toList.map .ofChar⟩

theorem compile_escape (text : String) : compile (escape text) = .ok (exactly text) := by
  have hscan := scan_escape text.toList scan_nil 0 none
  rw [List.append_nil, List.append_nil] at hscan
  rw [compile, escape, String.toList_ofList, hscan]
  rfl

theorem compile_star_escape (text : String) :
    compile ("*" ++ escape text) = .ok (endingIn text) := by
  have htext : ("*" ++ escape text).toList = '*' :: text.toList.flatMap escapeChar := by
    simp [escape]
  rw [compile, htext, scan_star_escape]
  rfl

theorem accepts_exactly_iff {text other : String} :
    (exactly text).accepts .standard other = true ↔ other = text := by
  rw [accepts_standard, exactly, leavesNothing_word (standsFor_map_ofChar _), String.toList_inj]

theorem literal?_ofChar {c d : Char} (h : (Token.ofChar c).literal? = some d) : d = c := by
  rw [Token.ofChar] at h
  split at h
  · cases h
  · exact (Option.some.inj h).symm

theorem mapM_literal?_ofChar {word cs : List Char}
    (h : (word.map .ofChar).mapM Token.literal? = some cs) : cs = word := by
  induction word generalizing cs with
  | nil =>
      cases h
      rfl
  | cons c word ih =>
      rw [List.map_cons, List.mapM_cons] at h
      obtain ⟨d, hd, h⟩ := Option.bind_eq_some_iff.1 h
      obtain ⟨ds, hds, h⟩ := Option.bind_eq_some_iff.1 h
      cases h
      rw [literal?_ofChar hd, ih hds]

/-- If `exactly text` is all literal, it is the literal `text`. -/
theorem literal?_exactly {text other : String} (h : (exactly text).literal? = some other) :
    other = text := by
  obtain ⟨cs, hcs, rfl⟩ := Option.map_eq_some_iff.1 h
  rw [mapM_literal?_ofChar hcs, String.ofList_toList]

end Arborist.Pattern
