import Arborist.Rule.Basic

/-!
# No array constructor

Reports every `new` expression whose constructor is the identifier `Array`.
-/

namespace Arborist.Rule.NewArray

def name : String := "no-new-array"

def description : String := "Forbids the Array constructor; use array literals instead"

def applies (n : Node) : Bool :=
  n.kind == .newExpression && (n.child? "callee").any fun c => c.isIdentifier "Array"

def inspect (v : Visit) : Option Report :=
  if applies v.node then some (v.report name none) else none

def rule : Rule := .perNode name description inspect

end Arborist.Rule.NewArray
