import Arborist.Tree.Walk

/-!
# Rules

A rule looks over a tree during a walk that it shares with other rules.  For every walk it makes a
state of its own, and it answers each event with a new state and a reaction: reports, and possibly
the wish that the descendants of the node be skipped.  A rule sees the reports made so far but
cannot take any back.
-/

namespace Arborist

structure Report where
  checkId : String
  node : Node
  ordinal : Nat
  extra : Option Json

structure Context where
  reports : Array Report

namespace Context

def empty : Context := ⟨#[]⟩

def size (c : Context) : Nat := c.reports.size

def add (c : Context) (reports : List Report) : Context := ⟨c.reports.appendList reports⟩

end Context

/-- What a rule sees besides the visit: the `context` with the reports so far, and whether a rule
before it has asked to skip the descendants in this very event. -/
structure Scene where
  context : Context
  skipping : Bool

structure Reaction where
  reports : List Report
  skip : Bool

namespace Reaction

def none : Reaction := ⟨[], false⟩

def report (r : Report) : Reaction := ⟨[r], false⟩

end Reaction

def Scene.after (s : Scene) (r : Reaction) : Scene :=
  ⟨s.context.add r.reports, s.skipping || r.skip⟩

/-- A rule, with a `State` of its own.  Asking to skip while a node is left has no effect.  The
`summary` of the state is for those who want to know more of a run than its reports. -/
structure Rule : Type 1 where
  name : String
  description : String
  State : Type
  create : Context → State
  enter : Visit → Scene → State → State × Reaction
  leave : Visit → Scene → State → State × Reaction
  summary : State → Json

namespace Visit

def report (v : Visit) (checkId : String) (extra : Option Json) : Report :=
  ⟨checkId, v.node, v.ordinal, extra⟩

end Visit

namespace Rule

/-- A rule without state, which may make one report on each node entered, as `inspect` says. -/
def perNode (name description : String) (inspect : Visit → Option Report) : Rule where
  name
  description
  State := Unit
  create _ := ()
  enter v _ _ := ((), ⟨(inspect v).toList, false⟩)
  leave _ _ _ := ((), .none)
  summary _ := .null

def silent : Rule := perNode "silent" "" fun _ => none

end Rule
end Arborist
