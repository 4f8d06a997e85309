import Arborist.Rule.Basic

/-!
# Scripted rules

A scripted rule is given by data: handlers for the nodes entered and for the nodes left, each with
the conditions under which it runs and the actions it takes.  Handlers run in order, and a handler
sees the reports of those before it.

A scripted rule may keep a trace of the events it was told of.  Every entry is stamped with the
number of events so far, so that the traces of several rules of one run can be put in one order.
-/

namespace Arborist

namespace Script

inductive Condition where
  | handler (name : String)
  | kind (tag : String)
  | name (name : String)
  | field (name : Option String)
  | index (index : Option Nat)
  | parent (tag : Option String)
  | reports (count : Nat)
  | never
  deriving DecidableEq, Repr

inductive Action where
  | skip
  | report (checkId : String) (extra : Option Json)
  | count (stem : String)
  | subwalk (tag : String)

structure Handler where
  conditions : List Condition
  actions : List Action

/-- The visitor of one run: its `counter`, the number of events so far, and the trace, last entry
first. -/
structure State where
  counter : Nat
  clock : Nat
  trace : List (Nat × Json)

end Script

structure Script where
  name : String
  enter : List Script.Handler
  leave : List Script.Handler
  traced : Bool

namespace Script

/-- Whether a condition holds for the visit `v`, handled under the name `handler`, with so many
`reports` made before. -/
def Condition.holds (v : Visit) (handler : String) (reports : Nat) : Condition → Bool
  | .handler h => handler == h
  | .kind t => v.node.kind.tag == t
  | .name n => v.node.string? "name" == some n
  | .field f => v.edge.map Edge.field == f
  | .index i => v.edge.bind Edge.index == i
  | .parent t => (v.edge.map fun e => e.parent.kind.tag) == t
  | .reports n => reports == n
  | .never => false

structure Progress where
  counter : Nat
  reports : Array Report
  skip : Bool

def Action.perform (v : Visit) (p : Progress) : Action → Progress
  | .skip => { p with skip := true }
  | .report checkId extra => { p with reports := p.reports.push (v.report checkId extra) }
  | .count stem =>
    { p with
      counter := p.counter + 1
      reports := p.reports.push (v.report (stem ++ "-" ++ toString (p.counter + 1)) none) }
  | .subwalk tag =>
    let found := (v.preorder.drop 1).filter fun w => w.node.kind.tag == tag
    { p with reports := p.reports ++ (found.map fun w => w.report ("sub-" ++ tag) none).toArray }

def Handler.run (v : Visit) (handler : String) (before : Nat) (p : Progress) (h : Handler) :
    Progress :=
  if h.conditions.all (Condition.holds v handler (before + p.reports.size)) then
    h.actions.foldl (Action.perform v) p
  else p

def traceEntry (script : Script) (event handler : String) (v : Visit) (s : Scene) : Json :=
  let edge :=
    match v.edge with
    | none => .null
    | some e =>
      .array [.string e.parent.kind.tag, .string e.field,
        match e.index with
        | none => .null
        | some i => .ofNat i]
  .array [.string event, .string script.name, .string handler, .string v.node.kind.tag, edge,
    .bool s.skipping, .ofNat s.context.size]

/-- Answers an event with the `handlers` for it, in order.  What they count and report adds up in a
`Progress`, and a `traced` script records the event. -/
def respond (script : Script) (event handler : String) (handlers : List Handler)
    (v : Visit) (s : Scene)
    (state : State) : State × Reaction :=
  let clock := state.clock + 1
  let trace :=
    if script.traced then (clock, script.traceEntry event handler v s) :: state.trace
    else state.trace
  let p := handlers.foldl (Handler.run v handler s.context.size) ⟨state.counter, #[], false⟩
  (⟨p.counter, clock, trace⟩, ⟨p.reports.toList, p.skip⟩)

def createEntry (script : Script) (c : Context) : Json :=
  .array [.string "create", .string script.name, .ofNat c.size, .bool (c.size == 0)]

def summary (state : State) : Json :=
  .array (state.trace.reverse.map fun e => .array [.ofNat e.1, e.2])

def rule (script : Script) : Rule where
  name := script.name
  description := ""
  State := State
  create c := ⟨0, 0, [(0, script.createEntry c)]⟩
  enter v s state := script.respond "enter" v.node.kind.handler script.enter v s state
  leave v s state := script.respond "leave" "leave" script.leave v s state
  summary := summary

end Script
end Arborist
