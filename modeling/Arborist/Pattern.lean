/-!
# Patterns on paths

A pattern describes whole paths.  `?` stands for any character, `*` for any text, and `[...]` for a
character of a set, or outside it after `!`.  `**` is a component of its own and stands for any
number of whole directories.  Everything else stands for itself.  `Pattern.Options` say whether the
wildcards also stand for slashes and for dots at the beginning of a component.

`Pattern.compile` reads a pattern and says where it is wrong; `Pattern.escape` writes a text as a
pattern that stands for this text alone.

A text is matched as a list of `Pattern.Letter`s.  The meaning of a token is the list of what it can
leave over of them, `Pattern.Token.rests`, and a pattern accepts a text of which it can leave
nothing, `Pattern.leavesNothing`.  To find that out, `Pattern.accepts` goes through the tokens once
and keeps marks on the tails of the text that the tokens so far can leave over; `accepts_eq` says
that this is the same.
-/

namespace Arborist

namespace Pattern

inductive Span where
  | single (c : Char)
  | range (first last : Char)
  deriving DecidableEq, Repr

inductive Token where
  | literal (c : Char)
  | anyChar
  | anyText
  | directories
  | within (spans : List Span)
  | outside (spans : List Span)
  deriving DecidableEq, Repr

inductive Reason where
  | wildcards
  | component
  | range
  deriving DecidableEq, Repr

def Reason.message : Reason → String
  | .wildcards => "wildcards are either regular `*` or recursive `**`"
  | .component => "recursive wildcards must form a single path component"
  | .range => "invalid range pattern"

structure Fault where
  position : Nat
  reason : Reason
  deriving DecidableEq, Repr

def Fault.message (f : Fault) : String :=
  "Pattern syntax error near position " ++ toString f.position ++ ": " ++ f.reason.message

end Pattern

structure Pattern where
  tokens : List Pattern.Token
  deriving DecidableEq, Repr

namespace Pattern

/-! ### Reading -/

def spans : List Char → List Span
  | a :: '-' :: b :: cs => .range a b :: spans cs
  | a :: cs => .single a :: spans cs
  | [] => []

/-- The characters up to the bracket that closes a set, and those after it.  The first one never
closes it, so that `[]]` is the set of one bracket. -/
def enclosed : List Char → Option (List Char × List Char)
  | [] => none
  | c :: cs =>
    match cs.dropWhile (· ≠ ']') with
    | [] => none
    | _ :: rest => some (c :: cs.takeWhile (· ≠ ']'), rest)

/-- A set: its `token`, its `width`, which is the number of characters up to and with the closing
bracket, and the `rest` of the text. -/
structure Bracketed where
  token : Token
  width : Nat
  rest : List Char

def scanSet : List Char → Option Bracketed
  | '!' :: cs => (enclosed cs).map fun e => ⟨.outside (spans e.1), e.1.length + 2, e.2⟩
  | cs => (enclosed cs).map fun e => ⟨.within (spans e.1), e.1.length + 1, e.2⟩

theorem enclosed_length {cs inside rest : List Char} (h : enclosed cs = some (inside, rest)) :
    rest.length < cs.length := by
  match cs with
  | [] => simp [enclosed] at h
  | c :: cs =>
    simp only [enclosed] at h
    split at h
    · simp at h
    · next d tail hd =>
      simp only [Option.some.injEq, Prod.mk.injEq] at h
      have := (List.dropWhile_suffix (· ≠ ']') (l := cs)).length_le
      rw [hd] at this
      obtain ⟨-, rfl⟩ := h
      simp only [List.length_cons] at this ⊢
      omega

theorem scanSet_length {cs : List Char} {b : Bracketed} (h : scanSet cs = some b) :
    b.rest.length < cs.length := by
  unfold scanSet at h
  split at h
  · simp only [Option.map_eq_some_iff, Prod.exists] at h
    obtain ⟨inside, tail, he, rfl⟩ := h
    have := enclosed_length he
    simp only [List.length_cons]
    omega
  · simp only [Option.map_eq_some_iff, Prod.exists] at h
    obtain ⟨inside, tail, he, rfl⟩ := h
    exact enclosed_length he

/-- `Token.directories` in front of tokens that may begin in the same way: `**/**/` means `**/`. -/
def directoriesThen : List Token → List Token
  | .directories :: tokens => .directories :: tokens
  | tokens => .directories :: tokens

/-- The tokens of a text that begins at `position` and has the character `before` in front.  Whether
`**` is well placed depends on what is around it. -/
def scan (position : Nat) (before : Option Char) (text : List Char) : Except Fault (List Token) :=
  match text with
  | [] => .ok []
  | '*' :: '*' :: '*' :: _ => .error ⟨position + 2, .wildcards⟩
  | '*' :: '*' :: rest =>
    if before.any (· ≠ '/') then .error ⟨position - 1, .component⟩
    else
      match rest with
      | [] => .ok [.directories]
      | '/' :: rest => do return directoriesThen (← scan (position + 3) (some '/') rest)
      | _ :: _ => .error ⟨position + 2, .component⟩
  | '*' :: rest => do return .anyText :: (← scan (position + 1) (some '*') rest)
  | '?' :: rest => do return .anyChar :: (← scan (position + 1) (some '?') rest)
  | '[' :: rest =>
    match h : scanSet rest with
    | none => .error ⟨position, .range⟩
    | some set => do
      have := scanSet_length h
      return set.token :: (← scan (position + 1 + set.width) (some ']') set.rest)
  | c :: rest => do return .literal c :: (← scan (position + 1) (some c) rest)
termination_by text.length
decreasing_by
  all_goals simp only [List.length_cons]
  all_goals omega

def compile (text : String) : Except Fault Pattern := do
  return ⟨← scan 0 none text.toList⟩

def isSpecial (c : Char) : Bool := c = '?' || c = '*' || c = '[' || c = ']'

def escapeChar (c : Char) : List Char := if isSpecial c then ['[', c, ']'] else [c]

def escape (text : String) : String := String.ofList (text.toList.flatMap escapeChar)

def Token.literal? : Token → Option Char
  | .literal c => some c
  | _ => none

/-- The text that a pattern of nothing but literal characters stands for.  The pattern `[a]` is not
of this form, although it accepts one text only. -/
def literal? (p : Pattern) : Option String := (p.tokens.mapM Token.literal?).map String.ofList

/-! ### Meaning -/

/-- What wildcards may not stand for: slashes (`literalSeparator`), and dots at the beginning of a
component (`literalLeadingDot`). -/
structure Options where
  literalSeparator : Bool
  literalLeadingDot : Bool
  deriving DecidableEq, Repr

def Options.standard : Options := ⟨false, false⟩

/-- A character of a text as the tokens see it.  `free` says that a wildcard may stand for it, and
`passable` that the directories of `**` may go past it. -/
structure Letter where
  char : Char
  free : Bool
  passable : Bool
  deriving DecidableEq, Repr

/-- The letters of a text under the options `o`.  `first` says that the text begins a component. -/
def letters (o : Options) (first : Bool) : List Char → List Letter
  | [] => []
  | c :: cs =>
    let hidden := o.literalLeadingDot && first && c = '.'
    ⟨c, !hidden && !(o.literalSeparator && c = '/'), !hidden⟩ :: letters o (c = '/') cs

def Span.contains (c : Char) : Span → Bool
  | .single a => c = a
  | .range first last => first ≤ c && c ≤ last

def tails : List Letter → List (List Letter)
  | [] => [[]]
  | l :: ls => (l :: ls) :: if l.free then tails ls else []

/-- What is left after each slash, and nothing, as far as the letters are passable.  This is what
`Token.directories` can leave over. -/
def tailsAfterSlash : List Letter → List (List Letter)
  | [] => [[]]
  | l :: ls =>
    if !l.passable then []
    else if l.char = '/' then ls :: tailsAfterSlash ls
    else tailsAfterSlash ls

def afterOne (accepts : Letter → Bool) : List Letter → List (List Letter)
  | [] => []
  | l :: ls => if accepts l then [ls] else []

def Token.acceptsLetter (l : Letter) : Token → Bool
  | .literal a => l.char = a
  | .anyChar => l.free
  | .within spans => l.free && spans.any (Span.contains l.char)
  | .outside spans => l.free && !spans.any (Span.contains l.char)
  | .anyText => false
  | .directories => false

/-- What a token can leave over of a text.  A text is accepted if the tokens one after the other can
leave nothing of it, which `Token.advance` finds out for all ways to match at once. -/
def Token.rests : Token → List Letter → List (List Letter)
  | .anyText => tails
  | .directories => fun ls => ls :: tailsAfterSlash ls
  | t => afterOne fun l => t.acceptsLetter l

def leavesNothing : List Token → List Letter → Bool
  | [], ls => ls.isEmpty
  | t :: tokens, ls => (t.rests ls).any (leavesNothing tokens)

/-! ### Matching

Marks pick tails of a text: the first mark says whether the text itself is picked, the next one
whether it is without its first letter, and so on.  What comes after the last mark is not picked. -/

def picked : List Letter → List Bool → List (List Letter)
  | _, [] => []
  | [], mark :: _ => if mark then [[]] else []
  | l :: ls, mark :: marks => (if mark then [l :: ls] else []) ++ picked ls marks

/-- One mark in front of others, unless it says no more than no mark at all. -/
def consMark : Bool → List Bool → List Bool
  | false, [] => []
  | mark, marks => mark :: marks

/-- Marks, on a text without its first letter, that pick what is left of the picked tails after one
letter. -/
def markOne (accepts : Letter → Bool) : List Letter → List Bool → List Bool
  | l :: ls, mark :: marks => consMark (mark && accepts l) (markOne accepts ls marks)
  | _, _ => []

/-- Marks that pick the `tails` of the picked tails, and those of the text itself if `here`. -/
def markTails (here : Bool) : List Letter → List Bool → List Bool
  | [], marks => [here || marks.headD false]
  | l :: ls, marks =>
    (here || marks.headD false)
      :: markTails ((here || marks.headD false) && l.free) ls marks.tail

/-- Marks that pick the picked tails and what is left of them after each slash.  `run` says that
some tail has been picked from which all letters up to here are passable, and `here` that the last
one of them was a slash. -/
def markSlash (run here : Bool) : List Letter → List Bool → List Bool
  | [], marks => [run || marks.headD false]
  | l :: ls, marks =>
    let run' := (run || marks.headD false) && l.passable
    (here || marks.headD false) :: markSlash run' (run' && l.char = '/') ls marks.tail

def firstPicked : List Letter → List Bool → List Letter × List Bool
  | l :: ls, mark :: marks => if mark then (l :: ls, true :: marks) else firstPicked ls marks
  | [], true :: _ => ([], [true])
  | ls, _ => (ls, [])

/-- A text and marks that pick what a token can leave over (`Token.rests`) of the tails picked
before. -/
def Token.advance (text : List Letter) (marks : List Bool) : Token → List Letter × List Bool
  | .anyText => (text, markTails false text marks)
  | .directories => (text, markSlash false false text marks)
  | t => firstPicked text.tail (markOne (fun l => t.acceptsLetter l) text marks)

def leavesNothingOfPicked : List Token → List Letter → List Bool → Bool
  | _, _, [] => false
  | [], text, mark :: marks => (picked text (mark :: marks)).any List.isEmpty
  | t :: tokens, text, mark :: marks =>
    let next := t.advance text (mark :: marks)
    leavesNothingOfPicked tokens next.1 next.2

/-- A pattern accepts a text if its tokens, by `Token.advance`, can leave nothing of it. -/
def accepts (p : Pattern) (o : Options) (text : String) : Bool :=
  leavesNothingOfPicked p.tokens (letters o true text.toList) [true]

@[simp] theorem picked_nil_marks (text : List Letter) : picked text [] = [] := by
  cases text <;> rfl

@[simp] theorem picked_cons_cons (l : Letter) (ls : List Letter) (mark : Bool) (marks : List Bool) :
    picked (l :: ls) (mark :: marks) = (if mark then [l :: ls] else []) ++ picked ls marks := rfl

theorem picked_consMark (text : List Letter) (mark : Bool) (marks : List Bool) :
    picked text (consMark mark marks) = picked text (mark :: marks) := by
  cases mark with
  | true => rfl
  | false =>
    cases marks with
    | nil => cases text <;> simp [consMark, picked]
    | cons => rfl

theorem picked_markOne (p : Letter → Bool) (text : List Letter) (marks : List Bool) :
    picked text.tail (markOne p text marks) = (picked text marks).flatMap (afterOne p) := by
  induction text generalizing marks with
  | nil =>
    cases marks with
    | nil => rfl
    | cons mark marks => cases mark <;> rfl
  | cons l text ih =>
    cases marks with
    | nil => simp [markOne]
    | cons mark marks =>
      rw [markOne, picked_consMark, picked, List.flatMap_append, ← ih marks, List.tail_cons]
      cases text with
      | nil => cases mark <;> cases h : p l <;> simp [picked, markOne, afterOne, h]
      | cons d text => cases mark <;> cases h : p l <;> simp [picked, afterOne, h]

/-- Marks are taken one at a time: what is picked is the text itself, or picked of the rest. -/
theorem mem_picked_cons {l : Letter} {ls rest : List Letter} {marks : List Bool} :
    rest ∈ picked (l :: ls) marks
      ↔ marks.headD false = true ∧ rest = l :: ls ∨ rest ∈ picked ls marks.tail := by
  cases marks with
  | nil => simp
  | cons mark marks => cases mark <;> simp

theorem mem_picked_nil {rest : List Letter} {marks : List Bool} :
    rest ∈ picked [] marks ↔ marks.headD false = true ∧ rest = [] := by
  cases marks with
  | nil => simp
  | cons mark marks => cases mark <;> simp [picked]

theorem mem_picked_markTails (here : Bool) (text : List Letter) (marks : List Bool)
    (rest : List Letter) :
    rest ∈ picked text (markTails here text marks)
      ↔ here = true ∧ rest ∈ tails text ∨ ∃ ls ∈ picked text marks, rest ∈ tails ls := by
  induction text generalizing here marks with
  | nil =>
    simp only [markTails, mem_picked_nil, tails, List.headD_cons, Bool.or_eq_true,
      List.mem_singleton]
    grind [tails]
  | cons l text ih =>
    simp only [markTails, mem_picked_cons, List.headD_cons, List.tail_cons, ih, Bool.or_eq_true,
      Bool.and_eq_true]
    grind [tails]

theorem mem_picked_markSlash (run here : Bool) (text : List Letter) (marks : List Bool)
    (rest : List Letter) :
    rest ∈ picked text (markSlash run here text marks)
      ↔ here = true ∧ text ≠ [] ∧ rest = text ∨ run = true ∧ rest ∈ tailsAfterSlash text
        ∨ ∃ ls ∈ picked text marks, rest ∈ ls :: tailsAfterSlash ls := by
  induction text generalizing run here marks with
  | nil =>
    simp only [markSlash, mem_picked_nil, tailsAfterSlash, List.headD_cons, Bool.or_eq_true,
      List.mem_singleton]
    grind [tailsAfterSlash]
  | cons l text ih =>
    simp only [markSlash, mem_picked_cons, List.headD_cons, List.tail_cons, ih, Bool.or_eq_true,
      Bool.and_eq_true]
    grind [tailsAfterSlash]

theorem picked_firstPicked (text : List Letter) (marks : List Bool) :
    picked (firstPicked text marks).1 (firstPicked text marks).2 = picked text marks := by
  induction text generalizing marks with
  | nil =>
    cases marks with
    | nil => rfl
    | cons mark marks => cases mark <;> rfl
  | cons l text ih =>
    cases marks with
    | nil => rfl
    | cons mark marks =>
      cases mark with
      | true => rfl
      | false => rw [firstPicked, if_neg Bool.false_ne_true, ih]; rfl

theorem mem_picked_advance (t : Token) (text : List Letter) (marks : List Bool)
    (rest : List Letter) :
    rest ∈ picked (t.advance text marks).1 (t.advance text marks).2
      ↔ ∃ ls ∈ picked text marks, rest ∈ t.rests ls := by
  cases t with
  | anyText =>
    simp only [Token.advance, mem_picked_markTails, Token.rests, Bool.false_eq_true, false_and,
      false_or]
  | directories =>
    simp only [Token.advance, mem_picked_markSlash, Token.rests, Bool.false_eq_true, false_and,
      false_or]
  | _ => simp only [Token.advance, picked_firstPicked, picked_markOne, Token.rests,
      List.mem_flatMap]

theorem leavesNothingOfPicked_eq (tokens : List Token) (text : List Letter) (marks : List Bool) :
    leavesNothingOfPicked tokens text marks = (picked text marks).any (leavesNothing tokens) := by
  induction tokens generalizing text marks with
  | nil =>
    cases marks with
    | nil => simp [leavesNothingOfPicked]
    | cons => rfl
  | cons t tokens ih =>
    cases marks with
    | nil => simp [leavesNothingOfPicked]
    | cons mark marks =>
      rw [leavesNothingOfPicked, ih, Bool.eq_iff_iff]
      simp only [List.any_eq_true, mem_picked_advance, leavesNothing]
      exact ⟨fun ⟨rest, ⟨ls, hls, hrest⟩, h⟩ => ⟨ls, hls, rest, hrest, h⟩,
        fun ⟨ls, hls, rest, hrest, h⟩ => ⟨rest, ⟨ls, hls, hrest⟩, h⟩⟩

theorem accepts_eq (p : Pattern) (o : Options) (text : String) :
    p.accepts o text = leavesNothing p.tokens (letters o true text.toList) := by
  rw [accepts, leavesNothingOfPicked_eq]
  cases letters o true text.toList <;> simp [picked]

end Pattern
end Arborist
