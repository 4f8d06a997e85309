import Arborist.Json.Basic
import Arborist.Json.Fault
import Arborist.Decimal.Digits
import Arborist.Decimal.Nearest

/-!
# Scalars of a JSON text

Scanners for the parts of a JSON text that do not nest: blanks, words, strings and numbers.  A
scanner takes the rest of a text and gives what it has read together with what is left, which is
always shorter.
-/

namespace Arborist.Json

def isBlank (c : Char) : Bool :=
  c = ' ' || c = '\t' || c = '\n' || c = '\r'

def skipBlanks (text : List Char) : List Char :=
  text.dropWhile isBlank

theorem length_skipBlanks_le (text : List Char) : (skipBlanks text).length ≤ text.length :=
  (List.dropWhile_suffix isBlank).length_le

def scanWord : List Char → List Char → Except Halt (List Char)
  | [], text => .ok text
  | _ :: _, [] => .error (.next .endInValue [])
  | w :: word, c :: text =>
      if c = w then scanWord word text else .error (.next .expectedWord (c :: text))

/-! ### Strings -/

def hexValue? (c : Char) : Option Nat :=
  if '0' ≤ c ∧ c ≤ '9' then some (c.toNat - '0'.toNat)
  else if 'a' ≤ c ∧ c ≤ 'f' then some (c.toNat - 'a'.toNat + 10)
  else if 'A' ≤ c ∧ c ≤ 'F' then some (c.toNat - 'A'.toNat + 10)
  else none

/-- Four hexadecimal digits.  The four bytes are taken before they are looked at, so that a fault
stands behind them. -/
def scanFourHex (text : List Char) : Except Halt (Nat × List Char) :=
  match text with
  | a :: b :: c :: d :: rest =>
    match hexValue? a, hexValue? b, hexValue? c, hexValue? d with
    | some a, some b, some c, some d => .ok (((a * 16 + b) * 16 + c) * 16 + d, rest)
    | _, _, _, _ => .error ⟨.invalidEscape, text, 4⟩
  | _ =>
    if 4 ≤ byteLength text then .error ⟨.invalidEscape, text, 4⟩
    else .error (.next .endInString [])

def isLeadingSurrogate (n : Nat) : Bool := 0xD800 ≤ n && n ≤ 0xDBFF

def isTrailingSurrogate (n : Nat) : Bool := 0xDC00 ≤ n && n ≤ 0xDFFF

def scanTrailingSurrogate (leading : Nat) (text : List Char) : Except Halt (Char × List Char) :=
  match text with
  | '\\' :: 'u' :: rest => do
    let (n, rest) ← scanFourHex rest
    if isTrailingSurrogate n then
      return (Char.ofNat ((leading - 0xD800) * 0x400 + (n - 0xDC00) + 0x10000), rest)
    else throw ⟨.loneSurrogate, rest, 0⟩
  | '\\' :: c :: rest => throw (.next .cutSurrogate (c :: rest))
  | ['\\'] => throw (.next .endInString [])
  | c :: rest => throw (.next .cutSurrogate (c :: rest))
  | [] => throw (.next .endInString [])

def escaped? : Char → Option Char
  | '"' => some '"'
  | '\\' => some '\\'
  | '/' => some '/'
  | 'b' => some '\x08'
  | 'f' => some '\x0c'
  | 'n' => some '\n'
  | 'r' => some '\r'
  | 't' => some '\t'
  | _ => none

/-- The code of a character, or of a pair of surrogates that stand for one.  The second half is read
by `scanTrailingSurrogate`. -/
def scanCode (text : List Char) : Except Halt (Char × List Char) := do
  let (n, rest) ← scanFourHex text
  if isTrailingSurrogate n then throw ⟨.loneSurrogate, rest, 0⟩
  else if isLeadingSurrogate n then scanTrailingSurrogate n rest
  else return (Char.ofNat n, rest)

def scanEscape (text : List Char) : Except Halt (Char × List Char) :=
  match text with
  | [] => .error (.next .endInString [])
  | c :: rest =>
    if c = 'u' then scanCode rest
    else
      match escaped? c with
      | some e => .ok (e, rest)
      | none => .error (.next .invalidEscape (c :: rest))

theorem length_of_scanFourHex {text rest : List Char} {n : Nat}
    (h : scanFourHex text = .ok (n, rest)) :
    rest.length < text.length := by
  unfold scanFourHex at h
  split at h
  · split at h
    · cases h; simp only [List.length_cons]; omega
    · cases h
  · split at h <;> cases h

theorem length_of_scanTrailingSurrogate {leading : Nat} {text rest : List Char} {c : Char}
    (h : scanTrailingSurrogate leading text = .ok (c, rest)) : rest.length < text.length := by
  unfold scanTrailingSurrogate at h
  split at h
  next tail =>
    cases hx : scanFourHex tail with
    | error e => simp [hx, bind, Except.bind] at h
    | ok p =>
      obtain ⟨n, r⟩ := p
      have := length_of_scanFourHex hx
      simp only [hx, bind, Except.bind] at h
      split at h
      · simp only [pure, Except.pure, Except.ok.injEq, Prod.mk.injEq] at h
        obtain ⟨-, rfl⟩ := h
        simp only [List.length_cons]
        omega
      · cases h
  all_goals cases h

theorem length_of_scanCode {text rest : List Char} {c : Char} (h : scanCode text = .ok (c, rest)) :
    rest.length < text.length := by
  unfold scanCode at h
  cases hx : scanFourHex text with
  | error e => simp [hx, bind, Except.bind] at h
  | ok p =>
    obtain ⟨n, r⟩ := p
    have := length_of_scanFourHex hx
    simp only [hx, bind, Except.bind] at h
    split at h
    · cases h
    · split at h
      · have := length_of_scanTrailingSurrogate h
        omega
      · simp only [pure, Except.pure, Except.ok.injEq, Prod.mk.injEq] at h
        obtain ⟨-, rfl⟩ := h
        omega

theorem length_of_scanEscape {text rest : List Char} {c : Char}
    (h : scanEscape text = .ok (c, rest)) :
    rest.length < text.length := by
  unfold scanEscape at h
  split at h
  · cases h
  · split at h
    · have := length_of_scanCode h
      simp only [List.length_cons]
      omega
    · split at h <;> cases h
      simp

/-- A string from after its opening quote to after its closing one.  The characters `read` so far
come last first. -/
def scanString (read : List Char) (text : List Char) : Except Halt (String × List Char) :=
  match text with
  | [] => .error (.next .endInString [])
  | c :: rest =>
    if c = '"' then .ok (String.ofList read.reverse, rest)
    else if c = '\\' then
      match _h : scanEscape rest with
      | .ok (e, rest) => scanString (e :: read) rest
      | .error halt => .error halt
    else if c.toNat < 0x20 then .error (.next .controlCharacter (c :: rest))
    else scanString (c :: read) rest
termination_by text.length
decreasing_by
  · have := length_of_scanEscape _h
    simp only [List.length_cons]
    omega
  · simp

theorem length_of_scanString {read text rest : List Char} {s : String}
    (h : scanString read text = .ok (s, rest)) : rest.length < text.length := by
  fun_induction scanString read text with
  | case1 => cases h
  | case2 => cases h; simp
  | case3 read tail e r hescape _ ih =>
    have := ih h
    have := length_of_scanEscape hescape
    simp only [List.length_cons]
    omega
  | case4 => cases h
  | case5 => cases h
  | case6 read c tail _ _ _ ih =>
    have := ih h
    simp only [List.length_cons]
    omega

/-! ### Numbers -/

def digitValue (c : Char) : Nat := c.toNat - '0'.toNat

def digitsValue (digits : List Char) : Nat :=
  Digits.value 10 (digits.reverse.map digitValue)

def scanDigits (text : List Char) : Except Halt (List Char × List Char) :=
  match text with
  | c :: rest =>
    if c.isDigit then .ok (c :: rest.takeWhile Char.isDigit, rest.dropWhile Char.isDigit)
    else .error (.next .invalidNumber (c :: rest))
  | [] => .error (.next .endInValue [])

def scanWhole (text : List Char) : Except Halt (List Char × List Char) :=
  match text with
  | '0' :: c :: rest =>
      if c.isDigit then .error (.next .invalidNumber (c :: rest)) else .ok (['0'], c :: rest)
  | _ => scanDigits text

def scanFraction (text : List Char) : Except Halt (Option (List Char) × List Char) :=
  match text with
  | '.' :: rest => (scanDigits rest).map fun (digits, rest) => (some digits, rest)
  | _ => .ok (none, text)

def scanSign (text : List Char) : Bool × List Char :=
  match text with
  | '+' :: rest => (false, rest)
  | '-' :: rest => (true, rest)
  | _ => (false, text)

def scanExponent (text : List Char) : Except Halt (Option (Bool × List Char) × List Char) :=
  match text with
  | [] => .ok (none, [])
  | c :: rest =>
    if c = 'e' || c = 'E' then
      let (negative, rest) := scanSign rest
      (scanDigits rest).map fun (digits, rest) => (some (negative, digits), rest)
    else .ok (none, c :: rest)

/-- A number as it is written: its digits, with `fraction` and `exponent` absent if there is no
point and no exponent mark. -/
structure Numeral where
  negative : Bool
  whole : List Char
  fraction : Option (List Char)
  exponent : Option (Bool × List Char)
  deriving DecidableEq, Repr

def scanNumeral (text : List Char) : Except Halt (Numeral × List Char) := do
  let (negative, rest) :=
    match text with
    | '-' :: rest => (true, rest)
    | _ => (false, text)
  let (whole, rest) ← scanWhole rest
  let (fraction, rest) ← scanFraction rest
  let (exponent, rest) ← scanExponent rest
  return (⟨negative, whole, fraction, exponent⟩, rest)

/-- A whole number is an integer if 64 bits hold it, signed if `negative`, and a double otherwise.
Minus zero is a double too. -/
def wholeNumber (negative : Bool) (units : Nat) : Number :=
  if negative then
    if 0 < units ∧ units ≤ Nat.pow 2 63 then .integer (-(units : Int))
    else .real (Decimal.mk true units 0).toFloat
  else
    if units < Nat.pow 2 64 then .integer units else .real (Decimal.mk false units 0).toFloat

namespace Numeral

def value (m : Numeral) : Number :=
  match m.fraction, m.exponent with
  | none, none => wholeNumber m.negative (digitsValue m.whole)
  | fraction, exponent =>
    let places := fraction.getD []
    let (below, power) := exponent.getD (false, [])
    let power : Int := if below then -(digitsValue power : Int) else digitsValue power
    .real (Decimal.mk m.negative (digitsValue (m.whole ++ places)) (power - places.length)).toFloat

def greatestExponent : Nat := Nat.pow 2 31 - 1

def digitsBeyond (bound : Nat) : Nat → List Char → List Char
  | _, [] => []
  | n, c :: digits =>
    let n := 10 * n + digitValue c
    if bound < n then digits else digitsBeyond bound n digits

/-- The digits behind the one that makes the exponent greater than `greatestExponent`, which are not
looked at any more. -/
def unread (m : Numeral) : List Char :=
  match m.exponent with
  | none => []
  | some (_, power) => digitsBeyond greatestExponent 0 power

end Numeral

/-- A number, its sign included.  There are no infinite numbers: a `Numeral` that is too large is a
fault. -/
def scanNumber (text : List Char) : Except Halt (Number × List Char) := do
  let (numeral, rest) ← scanNumeral text
  match numeral.value with
  | .integer n => return (.integer n, rest)
  | .real x =>
    if x.isInf then throw ⟨.numberOutOfRange, numeral.unread ++ rest, 0⟩
    else return (.real x, rest)

theorem length_of_scanDigits {text digits rest : List Char}
    (h : scanDigits text = .ok (digits, rest)) :
    rest.length < text.length := by
  unfold scanDigits at h
  split at h
  next c tail =>
    split at h
    · cases h
      have := (List.dropWhile_suffix (l := tail) Char.isDigit).length_le
      simp only [List.length_cons]
      omega
    · cases h
  next => cases h

theorem length_of_scanWhole {text digits rest : List Char}
    (h : scanWhole text = .ok (digits, rest)) :
    rest.length < text.length := by
  unfold scanWhole at h
  split at h
  · split at h
    · cases h
    · cases h; simp
  · exact length_of_scanDigits h

theorem length_of_scanFraction {text rest : List Char} {digits : Option (List Char)}
    (h : scanFraction text = .ok (digits, rest)) : rest.length ≤ text.length := by
  unfold scanFraction at h
  split at h
  next tail =>
    cases hx : scanDigits tail with
    | error e => simp [hx, Except.map] at h
    | ok p =>
      obtain ⟨ds, r⟩ := p
      have := length_of_scanDigits hx
      simp only [hx, Except.map, Except.ok.injEq, Prod.mk.injEq] at h
      obtain ⟨-, rfl⟩ := h
      simp only [List.length_cons]
      omega
  next => cases h; exact Nat.le_refl _

theorem length_scanSign_le (text : List Char) : (scanSign text).2.length ≤ text.length := by
  unfold scanSign
  split <;> simp

theorem length_of_scanExponent {text rest : List Char} {exponent : Option (Bool × List Char)}
    (h : scanExponent text = .ok (exponent, rest)) : rest.length ≤ text.length := by
  unfold scanExponent at h
  split at h
  next => cases h; exact Nat.le_refl _
  next c tail =>
    split at h
    · have hle := length_scanSign_le tail
      simp only at h
      cases hx : scanDigits (scanSign tail).2 with
      | error e => simp [hx, Except.map] at h
      | ok q =>
        obtain ⟨ds, r⟩ := q
        have := length_of_scanDigits hx
        simp only [hx, Except.map, Except.ok.injEq, Prod.mk.injEq] at h
        obtain ⟨-, rfl⟩ := h
        simp only [List.length_cons]
        omega
    · cases h; exact Nat.le_refl _

theorem length_of_scanNumeral {text rest : List Char} {m : Numeral}
    (h : scanNumeral text = .ok (m, rest)) : rest.length < text.length := by
  have hminus : (match text with
      | '-' :: rest => (true, rest)
      | _ => (false, text)).2.length ≤ text.length := by
    split <;> simp
  unfold scanNumeral at h
  simp only [bind, Except.bind] at h
  split at h
  next => cases h
  next p hwhole =>
    have := @length_of_scanWhole _ p.1 p.2 hwhole
    split at h
    next => cases h
    next q hfraction =>
      have := @length_of_scanFraction _ q.2 q.1 hfraction
      split at h
      next => cases h
      next r hexponent =>
        have := @length_of_scanExponent _ r.2 r.1 hexponent
        cases h
        omega

theorem length_of_scanNumber {text rest : List Char} {n : Number}
    (h : scanNumber text = .ok (n, rest)) : rest.length < text.length := by
  unfold scanNumber at h
  simp only [bind, Except.bind] at h
  split at h
  next => cases h
  next p hnumeral =>
    have := @length_of_scanNumeral _ p.2 p.1 hnumeral
    split at h
    · cases h; assumption
    · split at h
      · cases h
      · cases h; assumption

theorem length_of_scanWord {word text rest : List Char} (h : scanWord word text = .ok rest) :
    rest.length ≤ text.length := by
  fun_induction scanWord word text with
  | case1 text => cases h; exact Nat.le_refl _
  | case2 => cases h
  | case3 w word text ih =>
    have := ih h
    simp only [List.length_cons]
    omega
  | case4 => cases h

def scanScalar (text : List Char) : Except Halt (Json × List Char) :=
  match text with
  | [] => .error (.next .endInValue [])
  | c :: rest =>
    if c = 'n' then (scanWord ['u', 'l', 'l'] rest).map (Json.null, ·)
    else if c = 't' then (scanWord ['r', 'u', 'e'] rest).map (Json.bool true, ·)
    else if c = 'f' then (scanWord ['a', 'l', 's', 'e'] rest).map (Json.bool false, ·)
    else if c = '"' then (scanString [] rest).map fun (s, rest) => (Json.string s, rest)
    else if c = '-' || c.isDigit then
      (scanNumber (c :: rest)).map fun (n, rest) => (Json.number n, rest)
    else .error (.next .expectedValue (c :: rest))

theorem length_of_scanScalar {text rest : List Char} {v : Json}
    (h : scanScalar text = .ok (v, rest)) : rest.length < text.length := by
  have hword : ∀ {word tail : List Char} {w : Json},
      (scanWord word tail).map (w, ·) = .ok (v, rest) → rest.length ≤ tail.length := by
    intro word tail w h
    cases hx : scanWord word tail with
    | error e => simp [hx, Except.map] at h
    | ok r =>
      simp only [hx, Except.map, Except.ok.injEq, Prod.mk.injEq] at h
      obtain ⟨-, rfl⟩ := h
      exact length_of_scanWord hx
  unfold scanScalar at h
  split at h
  next => cases h
  next c tail =>
    simp only [List.length_cons]
    repeat' split at h
    · have := hword h; omega
    · have := hword h; omega
    · have := hword h; omega
    · cases hx : scanString [] tail with
      | error e => simp [hx, Except.map] at h
      | ok p =>
        obtain ⟨s, r⟩ := p
        have := length_of_scanString hx
        simp only [hx, Except.map, Except.ok.injEq, Prod.mk.injEq] at h
        obtain ⟨-, rfl⟩ := h
        omega
    · cases hx : scanNumber (c :: tail) with
      | error e => simp [hx, Except.map] at h
      | ok p =>
        obtain ⟨n, r⟩ := p
        have := length_of_scanNumber hx
        simp only [hx, Except.map, Except.ok.injEq, Prod.mk.injEq] at h
        obtain ⟨-, rfl⟩ := h
        simpa using this
    · cases h

end Arborist.Json
