import Arborist.Text

/-!
# Log lines

What the program says about its own progress, besides its answer.  Messages may hold names from
anywhere, and a terminal must not take them for commands.
-/

namespace Arborist.Log

inductive Level where
  | debug
  | info
  | warn
  deriving DecidableEq, Repr

def Level.word : Level → String
  | .debug => "DEBUG"
  | .info => "INFO"
  | .warn => "WARN"

structure Line where
  level : Level
  text : String
  deriving DecidableEq, Repr

def debug (text : String) : Line := ⟨.debug, text⟩

def info (text : String) : Line := ⟨.info, text⟩

def warn (text : String) : Line := ⟨.warn, text⟩

/-- Characters by which a terminal is told to do something: to ring, to go back, to clear the page,
to delete, or to read a sequence of commands. -/
def isCommand (c : Char) : Bool :=
  c = '\x07' || c = '\x08' || c = '\x0c' || c = '\x1b' || c = '\x7f'

def shownChar (c : Char) : List Char :=
  if isCommand c then '\\' :: 'x' :: (if c.toNat < 16 then ['0'] else []) ++ Nat.toDigits 16 c.toNat
  else if 0x80 ≤ c.toNat ∧ c.toNat < 0xA0 then Text.byNumber c
  else [c]

def Line.render (l : Line) : String :=
  l.level.word ++ " " ++ String.ofList (l.text.toList.flatMap shownChar)

def shown (verbose : Bool) (lines : List Line) : List Line :=
  lines.filter fun l => verbose || l.level ≠ .debug

end Arborist.Log
