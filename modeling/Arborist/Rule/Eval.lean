import Arborist.Rule.Basic

/-!
# No eval

Reports every call whose callee is an identifier with one of the forbidden names.  The name is
attached to the report.
-/

namespace Arborist.Rule.Eval

def name : String := "no-eval"

def description : String := "Forbids calls to eval and other configured functions"

def defaultCallees : List String := ["eval"]

def calleeName? (n : Node) : Option String := do
  guard (n.kind == .callExpression)
  let callee ← n.child? "callee"
  guard (callee.kind == .identifier)
  callee.string? "name"

def inspect (callees : List String) (v : Visit) : Option Report := do
  let callee ← calleeName? v.node
  guard (callees.contains callee)
  return v.report name (some (.object [("callee", .string callee)]))

def rule (callees : List String) : Rule := .perNode name description (inspect callees)

end Arborist.Rule.Eval
