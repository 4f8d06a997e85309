/-!
# Dictionaries

A dictionary finds values by name.  It is a search tree: names on the left of a node come before its
own, names on the right after it.  The two sides of a node never differ by more than one in height,
so that looking something up takes few comparisons even in a large dictionary.
-/

namespace Arborist

/-- Values by name, as a search tree.  The height that a node keeps is one more than that of its
higher side, and `tiltLeft` and `tiltRight` see to it that the sides differ by one at most. -/
inductive Dictionary (α : Type) where
  | empty
  | node (height : Nat) (left : Dictionary α) (name : String) (value : α) (right : Dictionary α)

namespace Dictionary

variable {α : Type}

def height : Dictionary α → Nat
  | empty => 0
  | node height _ _ _ _ => height

def find? (d : Dictionary α) (name : String) : Option α :=
  match d with
  | empty => none
  | node _ left here value right =>
    if name < here then left.find? name
    else if here < name then right.find? name
    else some value

def branch (left : Dictionary α) (name : String) (value : α) (right : Dictionary α) :
    Dictionary α :=
  node (max left.height right.height + 1) left name value right

def tiltLeft (left : Dictionary α) (name : String) (value : α) (right : Dictionary α) :
    Dictionary α :=
  match left with
  | node height outer leftName leftValue inner =>
    if height ≤ right.height + 1 then branch left name value right
    else
      match inner with
      | node innerHeight a innerName innerValue b =>
        if innerHeight ≤ outer.height then
          branch outer leftName leftValue (branch inner name value right)
        else branch (branch outer leftName leftValue a) innerName innerValue
          (branch b name value right)
      | empty => branch outer leftName leftValue (branch inner name value right)
  | empty => branch left name value right

def tiltRight (left : Dictionary α) (name : String) (value : α) (right : Dictionary α) :
    Dictionary α :=
  match right with
  | node height inner rightName rightValue outer =>
    if height ≤ left.height + 1 then branch left name value right
    else
      match inner with
      | node innerHeight a innerName innerValue b =>
        if innerHeight ≤ outer.height then
          branch (branch left name value inner) rightName rightValue outer
        else branch (branch left name value a) innerName innerValue
          (branch b rightName rightValue outer)
      | empty => branch (branch left name value inner) rightName rightValue outer
  | empty => branch left name value right

def insert (d : Dictionary α) (name : String) (value : α) : Dictionary α :=
  match d with
  | empty => branch empty name value empty
  | node height left here old right =>
    if name < here then tiltLeft (left.insert name value) here old right
    else if here < name then tiltRight left here old (right.insert name value)
    else node height left here value right

end Dictionary
end Arborist
