/-!
# What is wrong with a JSON text

A fault is a reason and the place it was noticed at.  Places are counted in bytes of the UTF-8 text:
the line is one more than the newlines before the place, the column the number of bytes since the
last of them.
-/

namespace Arborist.Json

inductive Reason where
  | endInValue
  | endInList
  | endInObject
  | endInString
  | expectedValue
  | expectedWord
  | expectedColon
  | expectedCommaOrBracket
  | expectedCommaOrBrace
  | trailingComma
  | trailingCharacters
  | keyNotString
  | invalidNumber
  | numberOutOfRange
  | invalidEscape
  | controlCharacter
  | loneSurrogate
  | cutSurrogate
  deriving DecidableEq, Repr

def Reason.message : Reason → String
  | .endInValue => "EOF while parsing a value"
  | .endInList => "EOF while parsing a list"
  | .endInObject => "EOF while parsing an object"
  | .endInString => "EOF while parsing a string"
  | .expectedValue => "expected value"
  | .expectedWord => "expected ident"
  | .expectedColon => "expected `:`"
  | .expectedCommaOrBracket => "expected `,` or `]`"
  | .expectedCommaOrBrace => "expected `,` or `\x7d`"
  | .trailingComma => "trailing comma"
  | .trailingCharacters => "trailing characters"
  | .keyNotString => "key must be a string"
  | .invalidNumber => "invalid number"
  | .numberOutOfRange => "number out of range"
  | .invalidEscape => "invalid escape"
  | .controlCharacter => "control character (\\u0000-\\u001F) found while parsing a string"
  | .loneSurrogate => "lone leading surrogate in hex escape"
  | .cutSurrogate => "unexpected end of hex escape"

structure Fault where
  reason : Reason
  line : Nat
  column : Nat
  deriving DecidableEq, Repr

def Fault.message (f : Fault) : String :=
  s!"{f.reason.message} at line {f.line} column {f.column}"

def byteLength (text : List Char) : Nat :=
  text.foldl (fun n c => n + c.utf8Size) 0

/-- Line and column of a byte offset, counting on from `line` and `column`.  The offset may lie
inside a character, and an offset past the end is the end. -/
def placeFrom (line column : Nat) : List Char → Nat → Nat × Nat
  | [], _ => (line, column)
  | c :: text, offset =>
    if offset < c.utf8Size then (line, column + offset)
    else if c = '\n' then placeFrom (line + 1) 0 text (offset - c.utf8Size)
    else placeFrom line (column + c.utf8Size) text (offset - c.utf8Size)

/-- The place where reading stopped: the `rest` that had not been read yet, and how many bytes of it
the fault takes in (`past`).  `Halt.fault` makes a line and a column of it. -/
structure Halt where
  reason : Reason
  rest : List Char
  past : Nat
  deriving DecidableEq, Repr

def Halt.next (reason : Reason) (rest : List Char) : Halt :=
  ⟨reason, rest, 1⟩

def Halt.fault (h : Halt) (text : List Char) : Fault :=
  let (line, column) := placeFrom 1 0 text (byteLength text - byteLength h.rest + h.past)
  ⟨h.reason, line, column⟩

end Arborist.Json
