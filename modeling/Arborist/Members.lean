/-!
# Members

A finite map from names, kept as a list of its entries in ascending order of the name.  `insert`
and `ofList` let the last value win.

Names are texts in documents and byte strings in directories, so the functions take any type with
a decidable order.  Texts are ordered by code point, which is also the order of their UTF-8 bytes.
-/

namespace Arborist

universe u v

abbrev Members (α : Type u) := List (String × α)

namespace Members

variable {κ : Type v} {α : Type u}

/-- The names are in strictly ascending order.  This holds of what `insert` and `ofList` build. -/
def Sorted [LT κ] (ms : List (κ × α)) : Prop :=
  (ms.map Prod.fst).Pairwise (· < ·)

def find? [DecidableEq κ] (ms : List (κ × α)) (name : κ) : Option α :=
  List.lookup name ms

def insert [DecidableEq κ] [LT κ] [DecidableLT κ] (ms : List (κ × α)) (name : κ) (value : α) :
    List (κ × α) :=
  match ms with
  | [] => [(name, value)]
  | (n, v) :: rest =>
    if name < n then (name, value) :: (n, v) :: rest
    else if name = n then (name, value) :: rest
    else (n, v) :: insert rest name value

/-- Puts the entry `e` in front of others that do not come before it.  If the next one has the
same name, that one stays and `e` goes. -/
def prepend [DecidableEq κ] (e : κ × α) (ms : List (κ × α)) : List (κ × α) :=
  match ms with
  | [] => [e]
  | next :: rest => if e.1 = next.1 then next :: rest else e :: next :: rest

/-- The entries in ascending order.  Of several with the same name the last one stays, because
`List.mergeSort` keeps their order and `prepend` drops the earlier one. -/
def ofList (entries : List (String × α)) : Members α :=
  (entries.mergeSort fun a b => a.1 ≤ b.1).foldr prepend []

def without [DecidableEq κ] (ms : List (κ × α)) (names : List κ) : List (κ × α) :=
  ms.filter fun e => !names.contains e.1

theorem find?_nil [DecidableEq κ] (name : κ) : find? ([] : List (κ × α)) name = none := rfl

theorem find?_cons [DecidableEq κ] (e : κ × α) (ms : List (κ × α)) (name : κ) :
    find? (e :: ms) name = if name == e.1 then some e.2 else find? ms name := by
  show (match name == e.1 with | true => some e.2 | false => find? ms name) = _
  cases name == e.1 <;> rfl

end Members
end Arborist
