import Arborist.Json.Scalar

/-!
# Reading JSON text

The reader keeps the arrays and objects it is inside of in a list of frames, so texts may nest to
any depth.  One step takes it from a place where a value is due, or from a value just read, to the
next such place; every step that goes on has read something, which is why reading ends.
-/

namespace Arborist.Json

/-- An array or object whose reading has begun.  Items and members come last first; an object waits
for the value of the member `name`. -/
inductive Frame where
  | array (items : List Json)
  | object (members : List (String × Json)) (name : String)

/-- A point in the reading of a text: the `frames` around it, innermost first, and the `rest` of the
text.  Either `value` has just been read or one is due. -/
structure Reader where
  value : Option Json
  frames : List Frame
  rest : List Char

inductive Step where
  | more (reader : Reader)
  | done (value : Json) (rest : List Char)
  | halt (halt : Halt)

namespace Reader

def beginMember (members : List (String × Json)) (frames : List Frame) (text : List Char) : Step :=
  match scanString [] text with
  | .error halt => .halt halt
  | .ok (name, rest) =>
    match skipBlanks rest with
    | [] => .halt (.next .endInObject [])
    | c :: rest =>
      if c = ':' then .more ⟨none, .object members name :: frames, rest⟩
      else .halt (.next .expectedColon (c :: rest))

def beginArray (frames : List Frame) (text : List Char) : Step :=
  match skipBlanks text with
  | [] => .halt (.next .endInList [])
  | c :: rest =>
    if c = ']' then .more ⟨some (.array []), frames, rest⟩
    else .more ⟨none, .array [] :: frames, c :: rest⟩

def beginObject (frames : List Frame) (text : List Char) : Step :=
  match skipBlanks text with
  | [] => .halt (.next .endInObject [])
  | c :: rest =>
    if c = '\x7d' then .more ⟨some (.object []), frames, rest⟩
    else if c = '"' then beginMember [] frames rest
    else .halt (.next .keyNotString (c :: rest))

def beginValue (frames : List Frame) (text : List Char) : Step :=
  match skipBlanks text with
  | [] => .halt (.next .endInValue [])
  | c :: rest =>
    if c = '[' then beginArray frames rest
    else if c = '\x7b' then beginObject frames rest
    else
      match scanScalar (c :: rest) with
      | .ok (v, rest) => .more ⟨some v, frames, rest⟩
      | .error halt => .halt halt

def nextItem (items : List Json) (frames : List Frame) (text : List Char) : Step :=
  match skipBlanks text with
  | [] => .halt (.next .endInValue [])
  | c :: rest =>
    if c = ']' then .halt (.next .trailingComma (c :: rest))
    else .more ⟨none, .array items :: frames, c :: rest⟩

def nextMember (members : List (String × Json)) (frames : List Frame) (text : List Char) : Step :=
  match skipBlanks text with
  | [] => .halt (.next .endInValue [])
  | c :: rest =>
    if c = '"' then beginMember members frames rest
    else if c = '\x7d' then .halt (.next .trailingComma (c :: rest))
    else .halt (.next .keyNotString (c :: rest))

def endValue (v : Json) (frames : List Frame) (text : List Char) : Step :=
  match frames with
  | [] => .done v text
  | .array items :: frames =>
    match skipBlanks text with
    | [] => .halt (.next .endInList [])
    | c :: rest =>
      if c = ']' then .more ⟨some (.array (v :: items).reverse), frames, rest⟩
      else if c = ',' then nextItem (v :: items) frames rest
      else .halt (.next .expectedCommaOrBracket (c :: rest))
  | .object members name :: frames =>
    match skipBlanks text with
    | [] => .halt (.next .endInObject [])
    | c :: rest =>
      if c = '\x7d' then
        .more ⟨some (.object (Members.ofList ((name, v) :: members).reverse)), frames, rest⟩
      else if c = ',' then nextMember ((name, v) :: members) frames rest
      else .halt (.next .expectedCommaOrBrace (c :: rest))

def step (r : Reader) : Step :=
  match r.value with
  | none => beginValue r.frames r.rest
  | some v => endValue v r.frames r.rest

theorem length_of_beginMember {members : List (String × Json)} {frames : List Frame}
    {text : List Char} {r : Reader}
    (h : beginMember members frames text = .more r) : r.rest.length < text.length := by
  unfold beginMember at h
  split at h
  next => cases h
  next name tail hstring =>
    have hlt := length_of_scanString hstring
    have hle := length_skipBlanks_le tail
    split at h
    next => cases h
    next c rest hskip =>
      rw [hskip, List.length_cons] at hle
      split at h <;> cases h
      simp only
      omega

theorem length_of_beginArray {frames : List Frame} {text : List Char} {r : Reader}
    (h : beginArray frames text = .more r) : r.rest.length ≤ text.length := by
  have hle := length_skipBlanks_le text
  unfold beginArray at h
  split at h
  next => cases h
  next c rest hskip =>
    rw [hskip, List.length_cons] at hle
    split at h <;> cases h <;> simp only [List.length_cons] <;> omega

theorem length_of_beginObject {frames : List Frame} {text : List Char} {r : Reader}
    (h : beginObject frames text = .more r) : r.rest.length ≤ text.length := by
  have hle := length_skipBlanks_le text
  unfold beginObject at h
  split at h
  next => cases h
  next c rest hskip =>
    rw [hskip, List.length_cons] at hle
    split at h
    · cases h; simp only; omega
    · split at h
      · have := length_of_beginMember h; omega
      · cases h

theorem length_of_beginValue {frames : List Frame} {text : List Char} {r : Reader}
    (h : beginValue frames text = .more r) : r.rest.length < text.length := by
  have hle := length_skipBlanks_le text
  unfold beginValue at h
  split at h
  next => cases h
  next c rest hskip =>
    rw [hskip, List.length_cons] at hle
    split at h
    · have := length_of_beginArray h; omega
    · split at h
      · have := length_of_beginObject h; omega
      · split at h
        next v tail hscalar =>
          have := length_of_scanScalar hscalar
          rw [List.length_cons] at this
          cases h
          simp only
          omega
        next => cases h

theorem length_of_nextItem {items : List Json} {frames : List Frame} {text : List Char} {r : Reader}
    (h : nextItem items frames text = .more r) : r.rest.length ≤ text.length := by
  have hle := length_skipBlanks_le text
  unfold nextItem at h
  split at h
  next => cases h
  next c rest hskip =>
    rw [hskip] at hle
    split at h <;> cases h
    exact hle

theorem length_of_nextMember {members : List (String × Json)} {frames : List Frame}
    {text : List Char} {r : Reader}
    (h : nextMember members frames text = .more r) : r.rest.length ≤ text.length := by
  have hle := length_skipBlanks_le text
  unfold nextMember at h
  split at h
  next => cases h
  next c rest hskip =>
    rw [hskip, List.length_cons] at hle
    split at h
    · have := length_of_beginMember h; omega
    · split at h <;> cases h

theorem length_of_endValue {v : Json} {frames : List Frame} {text : List Char} {r : Reader}
    (h : endValue v frames text = .more r) : r.rest.length < text.length := by
  have hle := length_skipBlanks_le text
  unfold endValue at h
  split at h
  · cases h
  · split at h
    next => cases h
    next c rest hskip =>
      rw [hskip, List.length_cons] at hle
      split at h
      · cases h; simp only; omega
      · split at h
        · have := length_of_nextItem h; omega
        · cases h
  · split at h
    next => cases h
    next c rest hskip =>
      rw [hskip, List.length_cons] at hle
      split at h
      · cases h; simp only; omega
      · split at h
        · have := length_of_nextMember h; omega
        · cases h

theorem length_of_step {r s : Reader} (h : r.step = .more s) : s.rest.length < r.rest.length := by
  unfold step at h
  split at h
  · exact length_of_beginValue h
  · exact length_of_endValue h

/-- Steps until a value stands alone.  Every `step` that leads on takes something off the text, and
nothing bounds the depth of the value. -/
def run (r : Reader) : Except Halt (Json × List Char) :=
  match _h : r.step with
  | .more s => run s
  | .done v rest => .ok (v, rest)
  | .halt halt => .error halt
termination_by r.rest.length
decreasing_by exact length_of_step _h

theorem run_of_more {r s : Reader} (h : r.step = .more s) : r.run = s.run := by
  rw [run]
  split <;> simp_all

theorem run_of_done {r : Reader} {v : Json} {rest : List Char} (h : r.step = .done v rest) :
    r.run = .ok (v, rest) := by
  rw [run]
  split <;> simp_all

end Reader

/-- The value of a text that holds one value and otherwise only blanks (`skipBlanks`). -/
def readAll (text : List Char) : Except Halt Json :=
  match Reader.run ⟨none, [], text⟩ with
  | .error halt => .error halt
  | .ok (v, rest) =>
    match skipBlanks rest with
    | [] => .ok v
    | c :: rest => .error (.next .trailingCharacters (c :: rest))

def parse (text : String) : Except Fault Json :=
  match readAll text.toList with
  | .ok v => .ok v
  | .error halt => .error (halt.fault text.toList)

end Arborist.Json
