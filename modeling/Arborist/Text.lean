/-!
# Pieces of text

Functions on characters and lines that several formats share.  A text is taken as a `List Char`
here, because the readers go through it from the front; `cut` works on any list, so that it also
divides the bytes of a path.
-/

namespace Arborist.Text

universe u

/-- The parts of a list between the occurrences of `mark`.  There is always at least one part,
and `mark` occurs in none of them. -/
def cut {α : Type u} [DecidableEq α] (mark : α) : List α → List (List α)
  | [] => [[]]
  | c :: cs =>
    if c = mark then [] :: cut mark cs
    else
      match cut mark cs with
      | [] => [[c]]
      | s :: rest => (c :: s) :: rest

def byNumber (c : Char) : List Char :=
  '\\' :: 'u' :: '\x7b' :: Nat.toDigits 16 c.toNat ++ ['\x7d']

/-- The characters with the Unicode property `White_Space`.  `Char.isWhitespace` knows only the
ASCII ones among them. -/
def isBlank (c : Char) : Bool :=
  let n := c.toNat
  (0x9 ≤ n && n ≤ 0xD) || n = 0x20 || n = 0x85 || n = 0xA0 || n = 0x1680
    || (0x2000 ≤ n && n ≤ 0x200A) || n = 0x2028 || n = 0x2029 || n = 0x202F || n = 0x205F
    || n = 0x3000

def trim (cs : List Char) : List Char :=
  ((cs.dropWhile isBlank).reverse.dropWhile isBlank).reverse

def lines (ls : List String) : String :=
  ls.foldr (fun l rest => l ++ "\n" ++ rest) ""

def padRight (width : Nat) (s : String) : String :=
  s ++ String.ofList (List.replicate (width - s.length) ' ')

end Arborist.Text
