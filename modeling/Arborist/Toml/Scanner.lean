import Arborist.Toml.Basic
import Arborist.Decimal.Digits
import Arborist.Decimal.Nearest

/-!
# Scalars, keys and blanks of a TOML document

A scanner takes what it recognizes from the front of a text, or fails.  Loops that do not follow the
text character by character are bounded by the length of the whole text, which every scanner knows.
-/

namespace Arborist.Toml

/-- Recognizes something at the front of a text and leaves the rest.  The number that is read along
is the length of the whole text, from which `bound` takes its fuel. -/
abbrev Scanner (α : Type) := ReaderT Nat (StateT (List Char) Option) α

namespace Scanner

def peek : Scanner (Option Char) := return (← get).head?

def one (p : Char → Bool) : Scanner Char := fun _ text =>
  match text with
  | c :: rest => if p c then some (c, rest) else none
  | [] => none

def char (c : Char) : Scanner Unit := do discard (one (· = c))

def word (w : String) : Scanner Unit := w.toList.forM char

def many (p : Char → Bool) : Scanner (List Char) := fun _ text =>
  some (text.takeWhile p, text.dropWhile p)

def ofOption {α : Type} (result : Option α) : Scanner α := fun _ text => result.map (·, text)

def bound : Scanner Nat := return (← read) + 1

def startsWith (w : String) : Scanner Bool := return w.toList.isPrefixOf (← get)

end Scanner

open Scanner

/-! ### Blanks and comments -/

def isBlank (c : Char) : Bool := c = ' ' || c = '\t'

def isText (c : Char) : Bool := c = '\t' || (0x20 ≤ c.toNat && c.toNat ≠ 0x7F)

def skipBlanks : Scanner Unit := do discard (many isBlank)

def newline : Scanner Unit := fun _ text =>
  match text with
  | '\n' :: rest => some ((), rest)
  | '\r' :: '\n' :: rest => some ((), rest)
  | _ => none

def endOfLine : Scanner Unit := do
  skipBlanks
  if (← peek) = some '#' then discard (many isText)
  match ← peek with
  | none => pure ()
  | some _ => newline

/-- Blanks, comments and newlines, as they may stand between the items of an array.  A comment goes
on while `inComment`. -/
def skipLines (inComment : Bool) : List Char → Option (List Char)
  | [] => some []
  | c :: rest =>
    if c = '\n' then skipLines false rest
    else if c = '\r' then
      match rest with
      | '\n' :: _ => skipLines inComment rest
      | _ => if inComment then none else some (c :: rest)
    else if inComment then if isText c then skipLines true rest else none
    else if isBlank c then skipLines false rest
    else if c = '#' then skipLines true rest
    else some (c :: rest)

def skipSpace : Scanner Unit := fun _ text => (skipLines false text).map ((), ·)

/-! ### Strings -/

def hexDigit? (c : Char) : Option Nat :=
  if '0' ≤ c ∧ c ≤ '9' then some (c.toNat - '0'.toNat)
  else if 'a' ≤ c ∧ c ≤ 'f' then some (c.toNat - 'a'.toNat + 10)
  else if 'A' ≤ c ∧ c ≤ 'F' then some (c.toNat - 'A'.toNat + 10)
  else none

def charCode (width : Nat) : Scanner Char := do
  let digits ← (List.replicate width ()).mapM fun _ => one fun c => (hexDigit? c).isSome
  let n := digits.foldl (fun n c => n * 16 + (hexDigit? c).getD 0) 0
  if n < 0xD800 ∨ (0xE000 ≤ n ∧ n < 0x110000) then return Char.ofNat n else failure

def escape : Scanner Char := do
  match ← one fun _ => true with
  | 'b' => return '\x08'
  | 't' => return '\t'
  | 'n' => return '\n'
  | 'f' => return '\x0c'
  | 'r' => return '\r'
  | '"' => return '"'
  | '\\' => return '\\'
  | 'u' => charCode 4
  | 'U' => charCode 8
  | _ => failure

def dropLines : List Char → List Char
  | '\r' :: '\n' :: text => dropLines text
  | c :: text => if isBlank c || c = '\n' then dropLines text else c :: text
  | [] => []

/-- The rest of a line after a backslash at its end, and what `dropLines` drops after it. -/
def foldedLines : Scanner Unit := do
  skipBlanks
  newline
  modify dropLines

structure StringStyle where
  quote : Char
  escapes : Bool
  multiline : Bool

/-- The rest of a string after its opening quotes; `front` holds its characters so far, last first.
The fuel is used up by one for every character. -/
def stringRest (style : StringStyle) : Nat → List Char → Scanner String
  | 0, _ => failure
  | fuel + 1, front => do
    let quotes ← many (· = style.quote)
    let n := quotes.length
    if style.multiline then
      if 3 ≤ n then
        if n ≤ 5 then return String.ofList (List.replicate (n - 3) style.quote ++ front).reverse
        else failure
      else if 1 ≤ n then return ← stringRest style fuel (quotes ++ front)
    else if 1 ≤ n then
      -- what follows the first quote is not part of the string
      modify (quotes.drop 1 ++ ·)
      return String.ofList front.reverse
    if style.multiline then
      if (← optional newline).isSome then return ← stringRest style fuel ('\n' :: front)
    let c ← one isText
    if style.escapes && c = '\\' then
      if style.multiline then
        if (← optional foldedLines).isSome then return ← stringRest style fuel front
      let c ← escape
      stringRest style fuel (c :: front)
    else stringRest style fuel (c :: front)

def stringOf (style : StringStyle) : Scanner String := do
  let opening := List.replicate (if style.multiline then 3 else 1) style.quote
  word (String.ofList opening)
  if style.multiline then discard (optional newline)
  stringRest style (← bound) []

def basicString : Scanner String := stringOf ⟨'"', true, false⟩

def literalString : Scanner String := stringOf ⟨'\'', false, false⟩

def anyString : Scanner String := do
  if ← startsWith "\"\"\"" then stringOf ⟨'"', true, true⟩
  else if ← startsWith "'''" then stringOf ⟨'\'', false, true⟩
  else if ← startsWith "\"" then basicString
  else literalString

/-! ### Keys -/

def isBare (c : Char) : Bool := c.isAlphanum || c = '_' || c = '-'

def simpleKey : Scanner String := do
  match ← peek with
  | some '"' => basicString
  | some '\'' => literalString
  | _ =>
    let cs ← many isBare
    if cs.isEmpty then failure else return String.ofList cs

def keyLimit : Nat := 80

def keyParts : Nat → Scanner (List String)
  | 0 => failure
  | fuel + 1 => do
    skipBlanks
    let part ← simpleKey
    skipBlanks
    match ← peek with
    | some '.' => do
      char '.'
      return part :: (← keyParts fuel)
    | _ => return [part]

def scanKey : Scanner (List String) := keyParts (keyLimit - 1)

/-! ### Numbers -/

/-- Digits, possibly with single underscores between them. -/
def digitRun (isDigit : Char → Bool) : Scanner (List Char) := do
  let first ← one isDigit
  let rest ← many fun c => isDigit c || c = '_'
  let all := first :: rest
  let paired := (all.zip (all.drop 1)).any fun p => p.1 = '_' && p.2 = '_'
  if paired || all.getLast? = some '_' then failure else return all.filter (· ≠ '_')

def sign : Scanner Bool := do
  match ← optional (one fun c => c = '+' || c = '-') with
  | some c => return c = '-'
  | none => return false

def wholeDigits : Scanner (List Char) := do
  match ← peek with
  | some '0' =>
    char '0'
    return ['0']
  | _ => digitRun Char.isDigit

def digitsValue (base : Nat) (digits : List Char) : Nat :=
  Digits.value base (digits.reverse.map fun c => (hexDigit? c).getD 0)

def inRange (n : Int) : Option Int :=
  if -(Int.pow 2 63) ≤ n ∧ n < Int.pow 2 63 then some n else none

def based (announce : String) (base : Nat) (isDigit : Char → Bool) : Scanner Int := do
  word announce
  let n := digitsValue base (← digitRun isDigit)
  ofOption (inRange n)

def scanInteger : Scanner Int := do
  if ← startsWith "0x" then based "0x" 16 fun c => (hexDigit? c).isSome
  else if ← startsWith "0o" then based "0o" 8 fun c => '0' ≤ c && c ≤ '7'
  else if ← startsWith "0b" then based "0b" 2 fun c => c = '0' || c = '1'
  else
    let negative ← sign
    let n := digitsValue 10 (← wholeDigits)
    ofOption (inRange (if negative then -(n : Int) else n))

def exponent : Scanner Int := do
  discard (one fun c => c = 'e' || c = 'E')
  let negative ← sign
  let n := digitsValue 10 (← digitRun Char.isDigit)
  return if negative then -(n : Int) else n

def fraction : Scanner (List Char) := do
  char '.'
  digitRun Char.isDigit

def infinity (negative : Bool) : Float := if negative then -(1.0 / 0.0) else 1.0 / 0.0

/-- A float: an integer part, and a `fraction` or an `exponent` or both; or a word for what is not a
finite number.  A positive number must not be too large. -/
def scanFloat : Scanner Float := do
  let negative ← sign
  if ← startsWith "inf" then
    word "inf"
    return infinity negative
  else if ← startsWith "nan" then
    word "nan"
    return 0.0 / 0.0
  else
    let whole ← wholeDigits
    let places ← optional fraction
    let power ← optional exponent
    if places.isNone && power.isNone then failure
    let places := places.getD []
    let x :=
        (Decimal.mk negative (digitsValue 10 (whole ++ places))
          (power.getD 0 - places.length)).toFloat
    if x.isInf && !negative then failure else return x

/-! ### Dates and times -/

def fixed (width least greatest : Nat) : Scanner Nat := do
  let digits ← (List.replicate width ()).mapM fun _ => one Char.isDigit
  let n := digitsValue 10 digits
  if least ≤ n ∧ n ≤ greatest then return n else failure

def isLeapYear (year : Nat) : Bool := year % 4 = 0 && (year % 100 ≠ 0 || year % 400 = 0)

def daysInMonth (year month : Nat) : Nat :=
  if month = 2 then if isLeapYear year then 29 else 28
  else if month = 4 || month = 6 || month = 9 || month = 11 then 30
  else 31

def scanDate : Scanner Date := do
  let year ← fixed 4 0 9999
  char '-'
  let month ← fixed 2 1 12
  char '-'
  let day ← fixed 2 1 31
  if day ≤ daysInMonth year month then return ⟨year, month, day⟩ else failure

/-- Fractions of a second, as nanoseconds; digits beyond those are cut off. -/
def secondFraction : Scanner Nat := do
  char '.'
  let first ← one Char.isDigit
  let rest ← many Char.isDigit
  let digits := (first :: rest).take 9
  return digitsValue 10 digits * Nat.pow 10 (9 - digits.length)

def scanTime : Scanner Time := do
  let hour ← fixed 2 0 23
  char ':'
  let minute ← fixed 2 0 59
  char ':'
  let second ← fixed 2 0 60
  let nanosecond ← optional secondFraction
  return ⟨hour, minute, second, nanosecond.getD 0⟩

def scanOffset : Scanner Offset := do
  match ← one fun c => c = 'Z' || c = 'z' || c = '+' || c = '-' with
  | '+' => return .minutes (← hoursAndMinutes)
  | '-' => return .minutes (-(← hoursAndMinutes))
  | _ => return .universal
where
  hoursAndMinutes : Scanner Int := do
    let hour ← fixed 2 0 23
    char ':'
    let minute ← fixed 2 0 59
    return (hour * 60 + minute : Nat)

def timeAfterDate : Scanner (Time × Option Offset) := do
  discard (one fun c => c = 'T' || c = 't' || c = ' ')
  return (← scanTime, ← optional scanOffset)

def scanDatetime : Scanner Datetime := do
  match ← optional scanDate with
  | some d =>
    match ← optional timeAfterDate with
    | some (t, o) => return ⟨some d, some t, o⟩
    | none => return ⟨some d, none, none⟩
  | none => return ⟨none, some (← scanTime), none⟩

def Datetime.ofText? (text : String) : Option Datetime :=
  match scanDatetime text.length text.toList with
  | some (d, []) => some d
  | _ => none

/-! ### Scalars -/

def scanScalar : Scanner Toml := do
  match ← peek with
  | some '"' | some '\'' => return .string (← anyString)
  | some 't' => do
    word "true"
    return .boolean true
  | some 'f' => do
    word "false"
    return .boolean false
  | _ =>
    match ← optional scanDatetime with
    | some d => return .datetime d
    | none =>
      match ← optional scanFloat with
      | some x => return .float x
      | none => return .integer (← scanInteger)

end Arborist.Toml
