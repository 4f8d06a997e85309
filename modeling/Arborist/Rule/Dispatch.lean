import Arborist.Rule.Basic

/-!
# Running rules over a tree

All rules share one walk.  At every event they are called in order, each seeing the reports of those
before it; if any of them asks to skip the descendants of the node entered, none of the rules gets
to see them.
-/

namespace Arborist

universe u

structure Running : Type 1 where
  rule : Rule
  state : rule.State

namespace Running

def enter (r : Running) (v : Visit) (s : Scene) : Running × Scene :=
  let (state, reaction) := r.rule.enter v s r.state
  (⟨r.rule, state⟩, s.after reaction)

def leave (r : Running) (v : Visit) (s : Scene) : Running × Scene :=
  let (state, reaction) := r.rule.leave v s r.state
  (⟨r.rule, state⟩, s.after reaction)

end Running

/-- Calls rules one after the other, each in the scene that the ones before it leave behind.  It is
stated for any `call`, so that proofs can use it for rules that keep more than `Running`. -/
def callAll {α : Type u} (call : α → Scene → α × Scene) : List α → Scene → List α × Scene
  | [], s => ([], s)
  | r :: rs, s =>
    let (r, s) := call r s
    let (rs, s) := callAll call rs s
    (r :: rs, s)

structure Pass : Type 1 where
  running : List Running
  context : Context

/-- Tells every rule of every event.  A node's descendants are skipped if one of the rules has asked
for it, for all rules alike. -/
def dispatching : Listener Visit Pass where
  enter v p :=
    let (running, s) := callAll (fun r s => r.enter v s) p.running ⟨p.context, false⟩
    (⟨running, s.context⟩, if s.skipping then .skip else .descend)
  leave v p :=
    let (running, s) := callAll (fun r s => r.leave v s) p.running ⟨p.context, false⟩
    ⟨running, s.context⟩

namespace Rule

def start (rules : List Rule) (context : Context) : Pass :=
  ⟨rules.map fun r => ⟨r, r.create context⟩, context⟩

def run (rules : List Rule) (root : Node) (context : Context) : Pass :=
  root.walk dispatching (start rules context)

/-- The reports of rules on a tree, behind those made before in `context`.  The rules are created
from this context and see it in every `Scene`. -/
def reportInto (rules : List Rule) (root : Node) (context : Context) : Context :=
  (run rules root context).context

def reports (rules : List Rule) (root : Node) : Array Report :=
  (reportInto rules root .empty).reports

end Rule
end Arborist
