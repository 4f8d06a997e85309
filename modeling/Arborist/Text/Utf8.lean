/-!
# Text and bytes

File names are bytes, and most of them are text in UTF-8.  `Text.bytes` writes a text as bytes,
`Text.ofBytes?` reads it back, and `Text.lossy` reads any bytes at all: whatever is not a character
becomes U+FFFD.

Reading goes byte by byte.  The state is the character that has been begun, if any, as a
`Text.Pending`; `Text.feed` says what one more byte gives and leaves, and `Text.decodeFrom` runs it
over all bytes.  A byte that cannot go on with a character ends it, and is looked at again as the
beginning of another one, so that every longest beginning of a character gives one U+FFFD.
-/

namespace Arborist.Text

def bytes (s : String) : List UInt8 := s.toUTF8.data.toList

def replacement : Char := Char.ofNat 0xFFFD

/-- A character that has been begun: the next byte has to be between `low` and `high`, `more`
bytes follow after that one, and `value` are the bits so far. -/
structure Pending where
  low : UInt8
  high : UInt8
  more : Nat
  value : Nat
  deriving DecidableEq, Repr

/-- The character that the byte `b` of a longer encoding begins.  The bounds on the second byte shut
out encodings that are longer than they have to be, surrogates, and everything above U+10FFFF. -/
def lead? (b : UInt8) : Option Pending :=
  let n := b.toNat
  if 0xC2 ≤ n ∧ n ≤ 0xDF then some ⟨0x80, 0xBF, 0, n - 0xC0⟩
  else if n = 0xE0 then some ⟨0xA0, 0xBF, 1, 0⟩
  else if n = 0xED then some ⟨0x80, 0x9F, 1, 0xD⟩
  else if 0xE1 ≤ n ∧ n ≤ 0xEF then some ⟨0x80, 0xBF, 1, n - 0xE0⟩
  else if n = 0xF0 then some ⟨0x90, 0xBF, 2, 0⟩
  else if n = 0xF4 then some ⟨0x80, 0x8F, 2, 4⟩
  else if 0xF1 ≤ n ∧ n ≤ 0xF3 then some ⟨0x80, 0xBF, 2, n - 0xF0⟩
  else none

def opening (b : UInt8) : List Char × Option Pending :=
  if b < 0x80 then ([Char.ofNat b.toNat], none)
  else
    match lead? b with
    | some p => ([], some p)
    | none => ([replacement], none)

def Pending.continue (p : Pending) (b : UInt8) : List Char × Option Pending :=
  let value := p.value * 64 + (b.toNat - 0x80)
  match p.more with
  | 0 => ([Char.ofNat value], none)
  | more + 1 => ([], some ⟨0x80, 0xBF, more, value⟩)

def feed : Option Pending → UInt8 → List Char × Option Pending
  | none, b => opening b
  | some p, b =>
    if p.low ≤ b ∧ b ≤ p.high then p.continue b
    else (replacement :: (opening b).1, (opening b).2)

/-- The characters of bytes that come after a state.  A character that is never finished gives
U+FFFD as well. -/
def decodeFrom : Option Pending → List UInt8 → List Char
  | none, [] => []
  | some _, [] => [replacement]
  | state, b :: bs => (feed state b).1 ++ decodeFrom (feed state b).2 bs

def lossy (bs : List UInt8) : String := String.ofList (decodeFrom none bs)

/-- The text whose bytes are given.  Bytes that are no text differ from those of what `lossy` makes
of them. -/
def ofBytes? (bs : List UInt8) : Option String :=
  if bytes (lossy bs) = bs then some (lossy bs) else none

end Arborist.Text
