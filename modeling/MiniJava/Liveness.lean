import MiniJava.Variables
import MiniJava.VarSet

/-!
# Liveness

Every statement is a node of the control-flow graph. A jump leads to the statement that defines its
label, and every statement but a jump without condition and a return leads to the next one. A variable
is live at a point if some path from there reads it before it is written.
-/

namespace MiniJava

open Ssa

namespace Ssa.Body

/-- The positions that may be executed right after a statement, without repetition. -/
def successorsOf (body : Body) (s : Statement) (i : Nat) : List Nat :=
  let target := if s.op.isJump then (s.label?.bind body.labelPosition?).toList else []
  if s.op.fallsThrough ∧ i + 1 < body.length ∧ ¬ target.contains (i + 1) then target ++ [i + 1]
  else target

def successors (body : Body) : List (List Nat) :=
  body.zipIdx.map fun (s, i) => body.successorsOf s i

end Ssa.Body

/-- What liveness needs to know about a statement. -/
structure FlowNode where
  /-- The variable that the statement writes. -/
  def? : Option Nat
  /-- The variables that the statement reads. -/
  uses : VarSet
  /-- The positions of the statements that may follow. -/
  successors : List Nat
  deriving DecidableEq, Repr

structure Liveness where
  nodes : List FlowNode
  liveIn : List VarSet
  liveOut : List VarSet
  deriving DecidableEq, Repr

namespace Liveness

/-- The control-flow graph of a body over its variables. -/
def nodesOf (body : Body) (vs : Variables) : List FlowNode :=
  (body.zipIdx.zip body.successors).map fun ((s, i), successors) =>
    { def? := if s.op.definesValue then vs.at? i else none
      uses := .ofList (s.uses.filterMap vs.of?)
      successors }

/-- What is live after a statement, given what is live before each statement. -/
def after (liveIn : Array VarSet) (node : FlowNode) : VarSet :=
  .unions (node.successors.map fun s => liveIn.getD s .empty)

/-- What is live before a statement, given what is live after it. -/
def transfer (node : FlowNode) (after : VarSet) : VarSet :=
  match node.def? with
  | some v => node.uses.union (after.erase v)
  | none => node.uses.union after

/-- The live sets found so far, before and after each statement. -/
structure Sets where
  liveIn : Array VarSet
  liveOut : Array VarSet
  deriving DecidableEq, Repr

def start (nodes : List FlowNode) : Sets :=
  { liveIn := (nodes.map (·.uses)).toArray
    liveOut := Array.replicate nodes.length .empty }

/-- Collects what is live after the statement at position `i`. If that has changed, the set before the
statement changes as well. The flag says whether anything has changed in this round. -/
def update (i : Nat) (node : FlowNode) : Sets × Bool → Sets × Bool
  | (sets, changed) =>
    let out := after sets.liveIn node
    if out = sets.liveOut.getD i .empty then (sets, changed)
    else
      ({ liveIn := sets.liveIn.setIfInBounds i (transfer node out)
         liveOut := sets.liveOut.setIfInBounds i out }, true)

/-- One round over all statements from last to first. -/
def round (nodes : List FlowNode) (sets : Sets) : Sets × Bool :=
  nodes.zipIdx.foldr (fun (node, i) => update i node) (sets, false)

/-- At most `n` rounds, ended by one that changes nothing. -/
def rounds (nodes : List FlowNode) : Nat → Sets → Sets
  | 0, sets => sets
  | n + 1, sets =>
    match round nodes sets with
    | (next, true) => rounds nodes n next
    | (next, false) => next

/-- The least solution. A round that changes something adds a variable somewhere, so there are no more
rounds than pairs of a statement and a variable, and one to see that nothing changes. -/
def solve (nodes : List FlowNode) (varCount : Nat) : Sets :=
  rounds nodes (nodes.length * varCount + 1) (start nodes)

def compute (body : Body) (vs : Variables) : Liveness :=
  let nodes := nodesOf body vs
  let sets := solve nodes vs.size
  { nodes, liveIn := sets.liveIn.toList, liveOut := sets.liveOut.toList }

def defs (live : Liveness) : List (Option Nat) := live.nodes.map (·.def?)

def uses (live : Liveness) : List VarSet := live.nodes.map (·.uses)

/-- Whether a variable is read again after the statement at a position. -/
def isLiveAfter (live : Liveness) (position v : Nat) : Bool :=
  (live.liveOut.getD position .empty).contains v

end Liveness

end MiniJava
