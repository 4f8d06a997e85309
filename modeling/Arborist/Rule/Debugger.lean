import Arborist.Rule.Basic

/-!
# No debugger statements

Reports every `debugger` statement.
-/

namespace Arborist.Rule.Debugger

def name : String := "no-debugger"

def description : String := "Forbids debugger statements"

def inspect (v : Visit) : Option Report :=
  if v.node.kind == .debuggerStatement then some (v.report name none) else none

def rule : Rule := .perNode name description inspect

end Arborist.Rule.Debugger
