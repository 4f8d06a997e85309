import Arborist.Rule.Basic

/-!
# No await in loops

Reports every `await` that runs once per iteration of a loop in the innermost function around it.

The rule keeps the loops and functions around the current node.  They lie on the way down to it, so
that each of them is known by its depth.  A loop may have a head that runs only once: up to and
including its initializer, or up to and including the expression it iterates over.  What comes after
the head runs once per iteration.  Loops that await their own items are no loops to this rule.
-/

namespace Arborist.Rule.AwaitInLoop

def name : String := "no-await-in-loop"

def description : String := "Forbids await inside loop bodies"

/-- A loop or function around the current node, known by its `depth`.  A loop remembers the field
`headEnd` at which its head ends, if it has a head, and whether that has been left. -/
inductive Scope where
  | loop (depth : Nat) (headEnd : Option String) (inBody : Bool)
  | function (depth : Nat)
  deriving DecidableEq, Repr

def Scope.depth : Scope → Nat
  | .loop depth _ _ => depth
  | .function depth => depth

/-- The scope of a loop whose head ends at the field `headEnd`.  Without a single node in that field
the loop has no head, and its body has begun. -/
def loopScope (v : Visit) (headEnd : Option String) : Scope :=
  let headEnd := headEnd.filter fun field => (v.node.child? field).isSome
  .loop v.depth headEnd headEnd.isNone

def scope? (v : Visit) : Option Scope :=
  let kind := v.node.kind
  if kind == .forStatement then some (loopScope v (some "init"))
  else if kind == .forInStatement then some (loopScope v (some "right"))
  else if kind == .forOfStatement then
    if v.node.bool? "await" == some true then none else some (loopScope v (some "right"))
  else if kind == .whileStatement || kind == .doWhileStatement then some (loopScope v none)
  else if kind == .functionDeclaration || kind == .functionExpression
      || kind == .arrowFunctionExpression then
    some (.function v.depth)
  else none

/-- Whether code inside these scopes, innermost first, runs once per iteration of a loop of its own
function.  A loop counts only once its body has begun. -/
def runsPerIteration : List Scope → Bool
  | [] => false
  | .function _ :: _ => false
  | .loop _ _ inBody :: scopes => inBody || runsPerIteration scopes

def enter (v : Visit) (scopes : List Scope) : List Scope × Reaction :=
  match scope? v with
  | some scope => (scope :: scopes, .none)
  | none =>
    if v.node.kind == .awaitExpression && runsPerIteration scopes then
      (scopes, .report (v.report name none))
    else (scopes, .none)

def isBelow (v : Visit) (depth : Nat) (field : String) : Bool :=
  match v.edge with
  | none => false
  | some e => e.field == field && v.depth == depth + 1

/-- Leaving the node of the innermost scope closes it, and leaving the end of a loop's head opens
its body.  Whether a node is that end is a matter of depth and field (`isBelow`). -/
def leave (v : Visit) (scopes : List Scope) : List Scope :=
  match scopes with
  | [] => []
  | scope :: rest =>
    if scope.depth == v.depth then rest
    else
      match scope with
      | .loop depth (some field) inBody =>
        if isBelow v depth field then .loop depth (some field) true :: rest
        else .loop depth (some field) inBody :: rest
      | scope => scope :: rest

def rule : Rule where
  name := name
  description := description
  State := List Scope
  create _ := []
  enter v _ scopes := enter v scopes
  leave v _ scopes := (leave v scopes, .none)
  summary _ := .null

end Arborist.Rule.AwaitInLoop
