import MiniJava.Partition
import MiniJava.Ssa.Program

/-!
# Variables of a body

Statements that are tied together by merges share one place. The classes of statements that arise are
the variables of a body; they are numbered by their first members. Only statements that define a value
and merges take part. A variable that contains a pinned statement is pinned, and all its pins agree.
-/

namespace MiniJava

open Ssa

/-- A merge ties values with different pins together. -/
structure PinConflict where
  stmt : StmtId
  first : Pin
  second : Pin
  deriving DecidableEq, Repr

/-- A variable: the positions of its members in ascending order, and its pin. -/
structure Variable where
  members : List Nat
  pin? : Option Pin
  deriving DecidableEq, Repr

/-- The variables of a body, by number, and the number of the variable of each statement. -/
structure Variables where
  all : List Variable
  /-- The variable of each position. -/
  byPosition : List (Option Nat)
  /-- The variable of each statement number, last statement first. -/
  byId : List (StmtId × Nat)
  deriving DecidableEq, Repr

namespace Ssa

/-- Whether a statement is a member of a variable. -/
def Statement.isTracked (s : Statement) : Bool := s.op.definesValue || s.op.isMerge

def Statement.mergeOperands (s : Statement) : List StmtId :=
  match s.op with
  | .unify => s.left?.toList ++ s.right?.toList
  | .aliasOf => s.left?.toList
  | _ => []

namespace Body

/-- The pairs of positions that merges tie together. -/
def mergeEdges (body : Body) : List (Nat × Nat) :=
  body.zipIdx.flatMap fun (s, i) =>
    (s.mergeOperands.filterMap body.lastPosition?).map (i, ·)

/-- The partition of the positions of a body that its merges generate. -/
def joined (body : Body) : Partition :=
  body.mergeEdges.foldl (fun p (i, j) => (p.union i j).2) (.discrete body.length)

/-- The statements that take part, each with its position and the root of its class. -/
def tracked (body : Body) : List (Statement × Nat × Nat) :=
  let joined := body.joined
  (body.zipIdx.filter (·.1.isTracked)).map fun (s, i) => (s, i, joined.root i)

end Body

end Ssa

namespace Variables

def membersOf (tracked : List (Statement × Nat × Nat)) (root : Nat) : List (Statement × Nat) :=
  tracked.filterMap fun (s, i, r) => if r = root then some (s, i) else none

/-- The variable of a root. Its pin is that of the first pinned member. -/
def variableOf (tracked : List (Statement × Nat × Nat)) (root : Nat) : Variable :=
  let members := membersOf tracked root
  { members := members.map (·.2), pin? := members.findSome? (·.1.pin?) }

/-- The first statement whose pin differs from that of its variable. -/
def conflict? (tracked : List (Statement × Nat × Nat)) : Option PinConflict :=
  tracked.findSome? fun (s, _, root) => do
    let second ← s.pin?
    let first ← (variableOf tracked root).pin?
    if first = second then none else some ⟨s.id, first, second⟩

def build (body : Body) : Except PinConflict Variables :=
  let tracked := body.tracked
  match conflict? tracked with
  | some conflict => .error conflict
  | none =>
    let roots := (tracked.map (·.2.2)).eraseDups
    let numbered := tracked.filterMap fun (s, i, root) => (roots.idxOf? root).map (s.id, i, ·)
    let positions := numbered.map (·.2)
    .ok {
      all := roots.map (variableOf tracked)
      byPosition := (List.range body.length).map fun i => positions.lookup i
      byId := (numbered.map fun (id, _, v) => (id, v)).reverse }

def size (vs : Variables) : Nat := vs.all.length

def at? (vs : Variables) (position : Nat) : Option Nat := (vs.byPosition[position]?).join

/-- The variable of the last statement with a number. -/
def of? (vs : Variables) (id : StmtId) : Option Nat := vs.byId.lookup id

def pins (vs : Variables) : List (Option Pin) := vs.all.map (·.pin?)

end Variables

end MiniJava
