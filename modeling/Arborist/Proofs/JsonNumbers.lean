import Arborist.Json.Scalar
import Arborist.Proofs.Failing
import Mathlib.Algebra.Group.Int.Defs
import Mathlib.Algebra.Group.Nat.Defs
import Mathlib.Data.List.Basic
import Mathlib.Data.List.Induction
import Mathlib.Data.List.TakeWhile

/-!
# Numbers of a JSON text

A numeral is a whole part, which has no superfluous zero in front, and possibly a fraction and an
exponent.  The scanner takes as much of the text as it can, so a numeral is read as it stands only
if what comes behind it cannot continue it.

An integer that 64 bits hold has one numeral, the usual one.  Every other number is a double, and
then it may be written in many ways.
-/

namespace Arborist.Json

/-! ### Digits -/

def IsDigits (digits : List Char) : Prop := digits ≠ [] ∧ ∀ c ∈ digits, c.isDigit = true

def EndsDigits (text : List Char) : Prop := ∀ c ∈ text.head?, c.isDigit = false

theorem scanDigits_append {digits rest : List Char} (h : IsDigits digits)
    (hrest : EndsDigits rest) :
    scanDigits (digits ++ rest) = .ok (digits, rest) := by
  obtain ⟨hne, hdigits⟩ := h
  have hnone : rest.takeWhile Char.isDigit = [] ∧ rest.dropWhile Char.isDigit = rest := by
    cases rest with
    | nil => exact ⟨rfl, rfl⟩
    | cons c rest =>
        have hc : ¬ c.isDigit = true := by simp [hrest c rfl]
        exact ⟨List.takeWhile_cons_of_neg hc, List.dropWhile_cons_of_neg hc⟩
  cases digits with
  | nil => exact absurd rfl hne
  | cons c digits =>
      obtain ⟨hc, htail⟩ := List.forall_mem_cons.1 hdigits
      rw [List.cons_append, scanDigits, if_pos hc, List.takeWhile_append_of_pos htail,
        List.dropWhile_append_of_pos htail, hnone.1, hnone.2, List.append_nil]

theorem exists_of_scanDigits {text digits rest : List Char}
    (h : scanDigits text = .ok (digits, rest)) :
    IsDigits digits ∧ text = digits ++ rest := by
  unfold scanDigits at h
  split at h
  next c tail =>
    split at h
    next hc =>
      cases h
      constructor
      · refine ⟨List.cons_ne_nil _ _, List.forall_mem_cons.2 ⟨hc, ?_⟩⟩
        intro d hd
        exact List.mem_takeWhile_imp hd
      · rw [List.cons_append, List.takeWhile_append_dropWhile]
    next => cases h
  next => cases h

theorem digitsValue_eq (digits : List Char) :
    digitsValue digits = Nat.ofDigitChars 10 digits 0 := by
  rw [digitsValue, Digits.value_eq_foldr, List.foldr_map, List.foldr_reverse,
    Nat.ofDigitChars_eq_foldl]
  simp only [digitValue, Nat.add_comm]

theorem digitsValue_append_singleton (digits : List Char) (c : Char) :
    digitsValue (digits ++ [c]) = 10 * digitsValue digits + digitValue c := by
  rw [digitsValue_eq, digitsValue_eq, Nat.ofDigitChars_append, Nat.ofDigitChars_cons,
    Nat.ofDigitChars_nil, digitValue]

theorem digitsValue_toDigits (n : Nat) : digitsValue (Nat.toDigits 10 n) = n := by
  rw [digitsValue_eq, Nat.ofDigitChars_ten_toDigits]

theorem digitValue_lt {c : Char} (h : c.isDigit = true) : digitValue c < 10 := by
  have hrange : 48 ≤ c.toNat ∧ c.toNat ≤ 57 := Char.isDigit_iff_toNat.1 h
  rw [digitValue, show '0'.toNat = 48 from rfl]
  omega

theorem digitChar_digitValue {c : Char} (h : c.isDigit = true) :
    Nat.digitChar (digitValue c) = c := by
  have hrange : 48 ≤ c.toNat ∧ c.toNat ≤ 57 := Char.isDigit_iff_toNat.1 h
  apply Char.toNat_inj.1
  rw [Nat.toNat_digitChar_of_lt_ten (digitValue_lt h), digitValue, show '0'.toNat = 48 from rfl]
  omega

/-! ### The whole part -/

structure IsWhole (digits : List Char) : Prop where
  isDigits : IsDigits digits
  no_zero : digits.head? = some '0' → digits = ['0']

/-- Digits without a superfluous zero are the usual ones of their value. -/
theorem IsWhole.toDigits_digitsValue {digits : List Char} (h : IsWhole digits) :
    Nat.toDigits 10 (digitsValue digits) = digits := by
  induction digits using List.reverseRecOn with
  | nil => exact absurd rfl h.isDigits.1
  | append_singleton digits c ih =>
      have hc : c.isDigit = true := h.isDigits.2 c (by simp)
      rw [digitsValue_append_singleton]
      by_cases hnil : digits = []
      · subst hnil
        rw [show digitsValue [] = 0 from digitsValue_eq [], Nat.mul_zero, Nat.zero_add,
          Nat.toDigits_of_lt_base (digitValue_lt hc), digitChar_digitValue hc, List.nil_append]
      · have hhead : digits.head? ≠ some '0' := by
          intro hzero
          have hlength := congrArg List.length (h.no_zero (by rw [List.head?_append, hzero]; rfl))
          rw [List.length_append, List.length_singleton, List.length_singleton] at hlength
          exact hnil (List.length_eq_zero_iff.1 (Nat.succ.inj hlength))
        have hdigits : Nat.toDigits 10 (digitsValue digits) = digits := by
          apply ih
          exact ⟨⟨hnil, fun d hd => h.isDigits.2 d (List.mem_append_left _ hd)⟩,
            fun hzero => absurd hzero hhead⟩
        have hpos : 0 < digitsValue digits := by
          apply Nat.pos_of_ne_zero
          intro hzero
          rw [hzero, Nat.toDigits_zero] at hdigits
          exact hhead (by rw [← hdigits]; rfl)
        rw [← Nat.toDigits_append_toDigits (by decide) hpos (digitValue_lt hc), hdigits,
          Nat.toDigits_of_lt_base (digitValue_lt hc), digitChar_digitValue hc]

theorem isWhole_toDigits (n : Nat) : IsWhole (Nat.toDigits 10 n) where
  isDigits :=
    ⟨Nat.toDigits_ne_nil, fun _ hc => Nat.isDigit_of_mem_toDigits (by decide) (by decide) hc⟩
  no_zero := by
    induction n using Nat.strongRecOn with
    | ind n ih =>
        rw [Nat.toDigits_eq_if (by decide)]
        split
        next =>
          intro hzero
          rw [List.head?_cons, Option.some.injEq] at hzero
          rw [hzero]
        next hge =>
          intro hzero
          rw [List.head?_append_of_ne_nil _ Nat.toDigits_ne_nil] at hzero
          have hdiv := digitsValue_toDigits (n / 10)
          rw [ih (n / 10) (by omega) hzero, ← Nat.toDigits_zero 10, digitsValue_toDigits] at hdiv
          omega

theorem scanWhole_append {digits rest : List Char} (h : IsWhole digits) (hrest : EndsDigits rest) :
    scanWhole (digits ++ rest) = .ok (digits, rest) := by
  unfold scanWhole
  split
  next c tail heq =>
    have hdigits : digits = ['0'] := by
      apply h.no_zero
      rw [← List.head?_append_of_ne_nil _ h.isDigits.1, heq, List.head?_cons]
    subst hdigits
    rw [List.singleton_append, List.cons.injEq] at heq
    rw [heq.2] at hrest
    rw [hrest c rfl, heq.2]
    rfl
  next => exact scanDigits_append h.isDigits hrest

theorem exists_of_scanWhole {text digits rest : List Char}
    (h : scanWhole text = .ok (digits, rest)) :
    IsWhole digits ∧ text = digits ++ rest := by
  unfold scanWhole at h
  split at h
  next =>
    split at h
    · cases h
    · cases h
      exact ⟨⟨⟨List.cons_ne_nil _ _, List.forall_mem_singleton.2 rfl⟩, fun _ => rfl⟩, rfl⟩
  next hshape =>
    obtain ⟨hdigits, rfl⟩ := exists_of_scanDigits h
    refine ⟨⟨hdigits, fun hzero => ?_⟩, rfl⟩
    obtain ⟨tail, rfl⟩ := List.head?_eq_some_iff.1 hzero
    cases tail with
    | nil => rfl
    | cons c tail => exact absurd rfl (hshape c (tail ++ rest))

/-! ### The fraction and the exponent -/

inductive Fraction : Option (List Char) → List Char → Prop
  | absent : Fraction none []
  | point {digits : List Char} : IsDigits digits → Fraction (some digits) ('.' :: digits)

inductive Sign : Bool → List Char → Prop
  | absent : Sign false []
  | plus : Sign false ['+']
  | minus : Sign true ['-']

inductive Exponent : Option (Bool × List Char) → List Char → Prop
  | absent : Exponent none []
  | power {mark : Char} {negative : Bool} {sign digits : List Char} :
      mark = 'e' ∨ mark = 'E' → Sign negative sign →
      IsDigits digits → Exponent (some (negative, digits)) (mark :: (sign ++ digits))

def EndsNumber (text : List Char) : Prop :=
  ∀ c ∈ text.head?, c.isDigit = false ∧ c ≠ '.' ∧ c ≠ 'e' ∧ c ≠ 'E'

theorem EndsNumber.endsDigits {text : List Char} (h : EndsNumber text) : EndsDigits text :=
  fun c hc => (h c hc).1

theorem Exponent.not_continued {exponent : Option (Bool × List Char)} {text rest : List Char}
    (h : Exponent exponent text) (hrest : EndsNumber rest) :
    ∀ c ∈ (text ++ rest).head?, c.isDigit = false ∧ c ≠ '.' := by
  intro c hc
  cases h with
  | absent => exact ⟨(hrest c hc).1, (hrest c hc).2.1⟩
  | power hmark =>
      rw [List.cons_append, List.head?_cons, Option.mem_some_iff] at hc
      subst hc
      rcases hmark with rfl | rfl <;> decide

theorem Fraction.endsDigits {fraction : Option (List Char)} {text rest : List Char}
    (h : Fraction fraction text) (hrest : EndsDigits rest) : EndsDigits (text ++ rest) := by
  cases h with
  | absent => exact hrest
  | point =>
      intro c hc
      rw [List.cons_append, List.head?_cons, Option.mem_some_iff] at hc
      subst hc
      rfl

theorem scanFraction_append {fraction : Option (List Char)} {text rest : List Char}
    (h : Fraction fraction text) (hrest : ∀ c ∈ rest.head?, c.isDigit = false ∧ c ≠ '.') :
    scanFraction (text ++ rest) = .ok (fraction, rest) := by
  cases h with
  | absent =>
      unfold scanFraction
      split
      next tail heq =>
        rw [List.nil_append] at heq
        exact absurd rfl (hrest '.' (by rw [heq]; rfl)).2
      next => rfl
  | point hdigits =>
      rw [List.cons_append, scanFraction, scanDigits_append hdigits fun c hc => (hrest c hc).1]
      rfl

theorem exists_of_scanFraction {fraction : Option (List Char)} {text rest : List Char}
    (h : scanFraction text = .ok (fraction, rest)) :
    ∃ written, Fraction fraction written ∧ text = written ++ rest := by
  unfold scanFraction at h
  split at h
  · obtain ⟨⟨digits, tail⟩, hscan, heq⟩ := map_eq_ok_iff.1 h
    obtain ⟨hdigits, rfl⟩ := exists_of_scanDigits hscan
    cases heq
    exact ⟨'.' :: digits, .point hdigits, rfl⟩
  · cases h
    exact ⟨[], .absent, rfl⟩

theorem scanSign_append {negative : Bool} {sign : List Char} (h : Sign negative sign)
    {digits : List Char} (hdigits : IsDigits digits) (rest : List Char) :
    scanSign (sign ++ (digits ++ rest)) = (negative, digits ++ rest) := by
  cases h with
  | absent =>
      cases digits with
      | nil => exact absurd rfl hdigits.1
      | cons c digits =>
          have hc : c.isDigit = true := hdigits.2 c List.mem_cons_self
          rw [List.nil_append, List.cons_append]
          unfold scanSign
          split
          next heq =>
            cases heq
            cases hc
          next heq =>
            cases heq
            cases hc
          next => rfl
  | plus => rfl
  | minus => rfl

theorem sign_scanSign (text : List Char) :
    ∃ sign, Sign (scanSign text).1 sign ∧ text = sign ++ (scanSign text).2 := by
  unfold scanSign
  split
  · exact ⟨['+'], .plus, rfl⟩
  · exact ⟨['-'], .minus, rfl⟩
  · exact ⟨[], .absent, rfl⟩

theorem scanExponent_append {exponent : Option (Bool × List Char)} {text rest : List Char}
    (h : Exponent exponent text) (hrest : EndsNumber rest) :
    scanExponent (text ++ rest) = .ok (exponent, rest) := by
  cases h with
  | absent =>
      rw [List.nil_append]
      unfold scanExponent
      split
      next => rfl
      next c tail =>
        have hc := hrest c rfl
        rw [if_neg (by simp [hc])]
  | power hmark hsign hdigits =>
      rw [List.cons_append, scanExponent, if_pos (by simpa using hmark), List.append_assoc,
        scanSign_append hsign hdigits]
      simp only [scanDigits_append hdigits hrest.endsDigits]
      rfl

theorem exists_of_scanExponent {exponent : Option (Bool × List Char)} {text rest : List Char}
    (h : scanExponent text = .ok (exponent, rest)) :
    ∃ written, Exponent exponent written ∧ text = written ++ rest := by
  unfold scanExponent at h
  split at h
  next =>
    cases h
    exact ⟨[], .absent, rfl⟩
  next mark tail =>
    split at h
    next hmark =>
      obtain ⟨sign, hsign, htail⟩ := sign_scanSign tail
      simp only at h
      obtain ⟨⟨digits, rest'⟩, hscan, heq⟩ := map_eq_ok_iff.1 h
      obtain ⟨hdigits, hsplit⟩ := exists_of_scanDigits hscan
      cases heq
      refine ⟨mark :: (sign ++ digits), .power (by simpa using hmark) hsign hdigits, ?_⟩
      rw [List.cons_append, List.append_assoc, ← hsplit, ← htail]
    next =>
      cases h
      exact ⟨[], .absent, rfl⟩

/-! ### Numerals -/

/-- A numeral and its characters: a minus sign, the whole part, and then `Fraction` and `Exponent`,
each of which may be missing. -/
inductive Numeral.Spelled : Numeral → List Char → Prop
  | parts {negative : Bool} {whole : List Char} {fraction : Option (List Char)}
      {exponent : Option (Bool × List Char)}
      {places power : List Char} :
      IsWhole whole → Fraction fraction places → Exponent exponent power →
      Spelled ⟨negative, whole, fraction, exponent⟩
        ((if negative then ['-'] else []) ++ (whole ++ (places ++ power)))

/-- The part of `scanNumeral` that comes behind the sign. -/
def scanUnsigned (negative : Bool) (text : List Char) : Except Halt (Numeral × List Char) := do
  let (whole, rest) ← scanWhole text
  let (fraction, rest) ← scanFraction rest
  let (exponent, rest) ← scanExponent rest
  return (⟨negative, whole, fraction, exponent⟩, rest)

theorem scanNumeral_minus (text : List Char) : scanNumeral ('-' :: text) = scanUnsigned true text :=
  rfl

theorem scanNumeral_of_ne {text : List Char} (h : text.head? ≠ some '-') :
    scanNumeral text = scanUnsigned false text := by
  unfold scanNumeral
  split
  next negative rest heq =>
    split at heq
    next => exact absurd rfl h
    next =>
      cases heq
      rfl

theorem scanUnsigned_append {negative : Bool} {whole : List Char} {fraction : Option (List Char)}
    {exponent : Option (Bool × List Char)} {places power rest : List Char} (hwhole : IsWhole whole)
    (hfraction : Fraction fraction places) (hexponent : Exponent exponent power)
    (hrest : EndsNumber rest) :
    scanUnsigned negative (whole ++ (places ++ (power ++ rest))) =
      .ok (⟨negative, whole, fraction, exponent⟩, rest) := by
  have hpower := hexponent.not_continued hrest
  have hplaces : EndsDigits (places ++ (power ++ rest)) :=
    hfraction.endsDigits fun c hc => (hpower c hc).1
  simp only [scanUnsigned, scanWhole_append hwhole hplaces, scanFraction_append hfraction hpower,
    scanExponent_append hexponent hrest, bind, Except.bind, pure, Except.pure]

theorem exists_of_scanUnsigned {negative : Bool} {m : Numeral} {text rest : List Char}
    (h : scanUnsigned negative text = .ok (m, rest)) :
    ∃ written, m.Spelled ((if negative then ['-'] else []) ++ written) ∧
      text = written ++ rest := by
  obtain ⟨⟨whole, behindWhole⟩, hscanWhole, h₁⟩ := bind_eq_ok_iff.1 h
  obtain ⟨⟨fraction, behindFraction⟩, hscanFraction, h₂⟩ := bind_eq_ok_iff.1 h₁
  obtain ⟨⟨exponent, behindExponent⟩, hscanExponent, h₃⟩ := bind_eq_ok_iff.1 h₂
  cases h₃
  obtain ⟨hwhole, rfl⟩ := exists_of_scanWhole hscanWhole
  obtain ⟨places, hfraction, rfl⟩ := exists_of_scanFraction hscanFraction
  obtain ⟨power, hexponent, rfl⟩ := exists_of_scanExponent hscanExponent
  exact ⟨_, .parts hwhole hfraction hexponent, by simp⟩

theorem scanNumeral_append {m : Numeral} {text rest : List Char} (h : m.Spelled text)
    (hrest : EndsNumber rest) :
    scanNumeral (text ++ rest) = .ok (m, rest) := by
  cases h with
  | @parts negative whole fraction exponent places power hwhole hfraction hexponent =>
      have hunsigned := @scanUnsigned_append negative _ _ _ _ _ _ hwhole hfraction hexponent hrest
      cases negative with
      | true =>
          rw [if_pos rfl, List.singleton_append, List.cons_append, scanNumeral_minus]
          simpa only [List.append_assoc] using hunsigned
      | false =>
          have hhead : (whole ++ (places ++ (power ++ rest))).head? ≠ some '-' := by
            rw [List.head?_append_of_ne_nil _ hwhole.isDigits.1]
            intro hminus
            have hdigit := hwhole.isDigits.2 '-' (List.mem_of_mem_head? hminus)
            cases hdigit
          rw [← scanNumeral_of_ne hhead] at hunsigned
          simpa only [Bool.false_eq_true, if_false, List.nil_append,
            List.append_assoc] using hunsigned

theorem exists_of_scanNumeral {m : Numeral} {text rest : List Char}
    (h : scanNumeral text = .ok (m, rest)) :
    ∃ written, m.Spelled written ∧ text = written ++ rest := by
  by_cases hminus : text.head? = some '-'
  · obtain ⟨tail, rfl⟩ := List.head?_eq_some_iff.1 hminus
    rw [scanNumeral_minus] at h
    obtain ⟨written, hwritten, rfl⟩ := exists_of_scanUnsigned h
    exact ⟨_, hwritten, rfl⟩
  · rw [scanNumeral_of_ne hminus] at h
    obtain ⟨written, hwritten, rfl⟩ := exists_of_scanUnsigned h
    exact ⟨_, hwritten, rfl⟩

/-! ### Numbers -/

/-- A number and its characters.  An integer of 64 bits is written as usual, without a point or an
exponent; every other spelling is that of a double. -/
inductive NumberText : Number → List Char → Prop
  | integer {n : Int} : -2 ^ 63 ≤ n → n < 2 ^ 64 → NumberText (.integer n) (toString n).toList
  | real {m : Numeral} {x : Float} {text : List Char} :
      m.Spelled text → m.value = .real x → x.isInf = false → NumberText (.real x) text

theorem toList_toString_natCast (n : Nat) : (toString (n : Int)).toList = Nat.toDigits 10 n := by
  rw [Int.toString_eq_repr, Int.repr_eq_if, if_pos (Int.natCast_nonneg n), Int.toNat_natCast,
    Nat.toList_repr]

theorem toList_toString_neg {n : Nat} (h : 0 < n) :
    (toString (-(n : Int))).toList = '-' :: Nat.toDigits 10 n := by
  rw [Int.toString_eq_repr, Int.repr_eq_if, if_neg (by omega), Int.neg_neg, Int.toNat_natCast,
    String.toList_append, Nat.toList_repr]
  rfl

theorem wholeNumber_false_eq_integer_iff {units : Nat} {n : Int} :
    wholeNumber false units = .integer n ↔ units < 2 ^ 64 ∧ n = units := by
  rw [wholeNumber, if_neg (by decide), show Nat.pow 2 64 = 2 ^ 64 from rfl]
  by_cases hunits : units < 2 ^ 64
  · rw [if_pos hunits, Number.integer.injEq]
    exact ⟨fun heq => ⟨hunits, heq.symm⟩, fun h => h.2.symm⟩
  · rw [if_neg hunits]
    exact ⟨Number.noConfusion, fun h => absurd h.1 hunits⟩

theorem wholeNumber_true_eq_integer_iff {units : Nat} {n : Int} :
    wholeNumber true units = .integer n ↔ (0 < units ∧ units ≤ 2 ^ 63) ∧ n = -(units : Int) := by
  rw [wholeNumber, if_pos rfl, show Nat.pow 2 63 = 2 ^ 63 from rfl]
  by_cases hunits : 0 < units ∧ units ≤ 2 ^ 63
  · rw [if_pos hunits, Number.integer.injEq]
    exact ⟨fun heq => ⟨hunits, heq.symm⟩, fun h => h.2.symm⟩
  · rw [if_neg hunits]
    exact ⟨Number.noConfusion, fun h => absurd h.1 hunits⟩

theorem value_eq_integer_iff {m : Numeral} {n : Int} :
    m.value = .integer n ↔
      m.fraction = none ∧ m.exponent = none ∧
        wholeNumber m.negative (digitsValue m.whole) = .integer n := by
  obtain ⟨negative, whole, fraction, exponent⟩ := m
  cases fraction with
  | some places => simp [Numeral.value]
  | none =>
      cases exponent with
      | some power => simp [Numeral.value]
      | none => simp [Numeral.value]

theorem spelled_whole (negative : Bool) {digits : List Char} (h : IsWhole digits) :
    Numeral.Spelled ⟨negative, digits, none, none⟩
      ((if negative then ['-'] else []) ++ digits) := by
  have hparts := @Numeral.Spelled.parts negative _ _ _ _ _ h .absent .absent
  rwa [List.append_nil, List.append_nil] at hparts

theorem exists_spelled_integer {n : Int} (hlow : -2 ^ 63 ≤ n) (hhigh : n < 2 ^ 64) :
    ∃ m : Numeral, m.Spelled (toString n).toList ∧ m.value = .integer n := by
  by_cases hsign : 0 ≤ n
  · obtain ⟨k, rfl⟩ := Int.eq_ofNat_of_zero_le hsign
    refine ⟨⟨false, Nat.toDigits 10 k, none, none⟩, ?_, ?_⟩
    · rw [toList_toString_natCast]
      exact spelled_whole false (isWhole_toDigits k)
    · rw [value_eq_integer_iff, digitsValue_toDigits, wholeNumber_false_eq_integer_iff]
      exact ⟨rfl, rfl, by omega, rfl⟩
  · obtain ⟨k, rfl⟩ : ∃ k : Nat, n = -(k : Int) := ⟨n.natAbs, by omega⟩
    refine ⟨⟨true, Nat.toDigits 10 k, none, none⟩, ?_, ?_⟩
    · rw [toList_toString_neg (by omega)]
      exact spelled_whole true (isWhole_toDigits k)
    · rw [value_eq_integer_iff, digitsValue_toDigits, wholeNumber_true_eq_integer_iff]
      exact ⟨rfl, rfl, ⟨by omega, by omega⟩, rfl⟩

/-- An integer has no other numeral than the usual one. -/
theorem numberText_of_value_eq_integer {m : Numeral} {n : Int} {text : List Char}
    (h : m.Spelled text)
    (hvalue : m.value = .integer n) : NumberText (.integer n) text := by
  cases h with
  | @parts negative whole fraction exponent places power hwhole hfraction hexponent =>
      obtain ⟨rfl, rfl, hwholeNumber⟩ := value_eq_integer_iff.1 hvalue
      cases hfraction
      cases hexponent
      rw [List.append_nil, List.append_nil, ← hwhole.toDigits_digitsValue]
      cases negative with
      | false =>
          obtain ⟨hlt, rfl⟩ := wholeNumber_false_eq_integer_iff.1 hwholeNumber
          rw [if_neg (by decide), List.nil_append, ← toList_toString_natCast]
          exact .integer (by omega) (by omega)
      | true =>
          obtain ⟨⟨hpos, hle⟩, rfl⟩ := wholeNumber_true_eq_integer_iff.1 hwholeNumber
          rw [if_pos rfl, List.singleton_append, ← toList_toString_neg hpos]
          exact .integer (by omega) (by omega)

theorem scanNumber_append {n : Number} {text rest : List Char} (h : NumberText n text)
    (hrest : EndsNumber rest) :
    scanNumber (text ++ rest) = .ok (n, rest) := by
  cases h with
  | integer hlow hhigh =>
      obtain ⟨m, hm, hvalue⟩ := exists_spelled_integer hlow hhigh
      simp only [scanNumber, scanNumeral_append hm hrest, hvalue, bind, Except.bind, pure,
        Except.pure]
  | real hm hvalue hfinite =>
      simp [scanNumber, scanNumeral_append hm hrest, hvalue, hfinite, bind, Except.bind, pure,
        Except.pure]

theorem exists_of_scanNumber {n : Number} {text rest : List Char}
    (h : scanNumber text = .ok (n, rest)) :
    ∃ written, NumberText n written ∧ text = written ++ rest := by
  obtain ⟨⟨m, tail⟩, hscan, hnumber⟩ := bind_eq_ok_iff.1 h
  obtain ⟨written, hm, rfl⟩ := exists_of_scanNumeral hscan
  simp only at hnumber
  split at hnumber
  next hvalue =>
    cases hnumber
    exact ⟨written, numberText_of_value_eq_integer hm hvalue, rfl⟩
  next x hvalue =>
    split at hnumber
    next => cases hnumber
    next hfinite =>
      cases hnumber
      exact ⟨written, .real hm hvalue (by simpa using hfinite), rfl⟩

def StartsNumber (c : Char) : Prop := c = '-' ∨ c.isDigit = true

instance (c : Char) : Decidable (StartsNumber c) :=
  inferInstanceAs (Decidable (_ ∨ _))

theorem StartsNumber.ne {c d : Char} (hc : StartsNumber c) (hd : ¬ StartsNumber d) : c ≠ d := by
  intro heq
  exact hd (heq ▸ hc)

theorem NumberText.exists_cons {n : Number} {text : List Char} (h : NumberText n text) :
    ∃ c tail, text = c :: tail ∧ StartsNumber c := by
  have hspelled : ∃ m : Numeral, m.Spelled text := by
    cases h with
    | integer hlow hhigh =>
        obtain ⟨m, hm, -⟩ := exists_spelled_integer hlow hhigh
        exact ⟨m, hm⟩
    | real hm => exact ⟨_, hm⟩
  obtain ⟨m, hm⟩ := hspelled
  cases hm with
  | @parts negative whole fraction exponent places power hwhole hfraction hexponent =>
      cases negative with
      | true => exact ⟨'-', _, rfl, .inl rfl⟩
      | false =>
          obtain ⟨c, tail, rfl⟩ := List.exists_cons_of_ne_nil hwhole.isDigits.1
          exact ⟨c, _, rfl, .inr (hwhole.isDigits.2 c List.mem_cons_self)⟩

end Arborist.Json
