import MiniJava.CallingConvention
import MiniJava.Coloring
import MiniJava.Ssa.Sweep
import MiniJava.Spill

/-!
# Register allocation

A method is allocated in rounds. A round colors the variables of the body. If some are left over, the
spill candidates among them get stack slots, and the next round works on the body with spill code.
-/

namespace MiniJava

open Ssa

inductive AllocError where
  | conflictingPins (conflict : PinConflict)
  | insufficientRegisters (method : String) (registers : Nat)
  deriving DecidableEq, Repr

namespace AllocError

def message : AllocError → String
  | conflictingPins c =>
    s!"statement {c.stmt} joins values pinned to {c.first.text} and {c.second.text}"
  | insufficientRegisters method k => s!"method '{method}' cannot be colored with {k} registers"

end AllocError

structure MethodStats where
  method : String
  registersUsed : Nat
  spillSlots : Nat
  rounds : Nat
  deriving DecidableEq, Repr

/-! ## One round -/

/-- The variables of a body, their liveness and interference, and which may be spilled. -/
structure Analysis where
  vars : Variables
  live : Liveness
  graph : InterferenceGraph
  candidates : VarSet

namespace Analysis

def of (body : Body) : Except PinConflict Analysis := do
  let vars ← Variables.build body
  let live := Liveness.compute body vars
  return {
    vars, live
    graph := .build vars.size live
    candidates := Spill.candidates body live }

/-- The coloring of the variables with `k` colors. -/
def coloring (a : Analysis) (k : Nat) : Coloring :=
  ColoringProblem.solve
    { graph := a.graph, pins := a.vars.pins, colors := k, candidates := a.candidates }

end Analysis

namespace Ssa.Body

/-- Takes the registers away from statements that are not pinned. -/
def clearRegisters (body : Body) : Body :=
  body.map fun s => if s.pin?.isNone then { s with register? := none } else s

def assignRegisters (body : Body) (vs : Variables) (colors : List (Option Nat)) : Body :=
  body.zipIdx.map fun (s, i) =>
    match vs.at? i with
    | some v => { s with register? := (colors[v]?).join }
    | none => s

/-- One more than the highest statement number that a body mentions. -/
def idBound (body : Body) : Nat :=
  (body.flatMap fun s => s.id :: s.operands).foldl (fun n id => max n (id + 1)) 0

end Ssa.Body

inductive Round where
  | colored (body : Body)
  | failed (e : AllocError)
  /-- Some variables were spilled, and the new body has to be colored. -/
  | spilled (body : Body) (nextId : StmtId)

/-- One round on a body without registers. Slots are numbered on from those in use. -/
def allocationRound (method : String) (k : Nat) (body : Body) (nextId : StmtId) : Round :=
  match Analysis.of body with
  | .error conflict => .failed (.conflictingPins conflict)
  | .ok a =>
    let coloring := a.coloring k
    if coloring.uncolored.isEmpty then
      .colored (body.assignRegisters a.vars coloring.colors)
    else
      let spilled := coloring.uncolored.filter a.candidates.contains
      if spilled.isEmpty then .failed (.insufficientRegisters method k)
      else
        let (body, nextId) :=
          Spill.spillBody body a.vars a.live (spilled.zipIdx body.nextFreeSlot) nextId
        .spilled body nextId

/-! ## Methods -/

/-- What is left after an allocation, successful or not. -/
structure Allocated (α : Type) where
  body : Body
  nextId : StmtId
  result : Except AllocError α

/-- At most `n` rounds, after `done` rounds. The result is the number of rounds. -/
def allocationRounds (method : String) (k : Nat) : Nat → Nat → Body → StmtId → Allocated Nat
  | 0, _, body, nextId => ⟨body, nextId, .error (.insufficientRegisters method k)⟩
  | n + 1, done, body, nextId =>
    let body := body.clearRegisters
    match allocationRound method k body nextId with
    | .colored body => ⟨body, nextId, .ok (done + 1)⟩
    | .failed e => ⟨body, nextId, .error e⟩
    | .spilled body nextId => allocationRounds method k n (done + 1) body nextId

/-- A number of rounds that is always enough. A round that spills takes a fresh number, so soon fresh
numbers are above all that the body mentions. From then on each round leaves one candidate less, and
there are no more candidates than statements in the first body, since every candidate has a member
that is no spill code. -/
def roundLimit (body : Body) (nextId : StmtId) : Nat :=
  (body.idBound - nextId) + body.length + 1

namespace Ssa.Body

/-- The body on which allocation starts: parameters and arguments are pinned, and assignments to
locals forget the previous value, which only served to find their type. -/
def prepare (body : Body) : Body :=
  body.map fun s =>
    let s := s.pin
    if s.op = .assignVar then { s with right? := none } else s

end Ssa.Body

/-- Allocates a body for `k` registers; new statements get numbers from `nextId` on. -/
def allocateBody (method : String) (k : Nat) (body : Body) (nextId : StmtId) :
    Allocated MethodStats :=
  if k = 0 then ⟨body, nextId, .error (.insufficientRegisters method k)⟩
  else
    let body := body.prepare
    let allocated := allocationRounds method k (roundLimit body nextId) 0 body nextId
    { allocated with
      result := allocated.result.map fun rounds =>
        { method, registersUsed := allocated.body.registersUsed
          spillSlots := allocated.body.nextFreeSlot, rounds } }

def allocateMethod (m : Method) (k : Nat) (nextId : StmtId) : Allocated MethodStats :=
  allocateBody m.qualifiedName k m.body nextId

/-! ## Programs -/

namespace Ssa.Program

/-- Allocates one method of a program, given the next free number and the results so far. -/
def allocateNext (k : Nat) (state : StmtId × List MethodStats) (m : Method) :
    Method × Except AllocError (StmtId × List MethodStats) :=
  let allocated := allocateMethod m k state.1
  ({ m with body := allocated.body },
    allocated.result.map fun stats => (allocated.nextId, state.2 ++ [stats]))

/-- Allocates all methods of a program. If a method fails, the methods up to it keep their new bodies,
but the program's next free number stays as it was. -/
def allocate (p : Program) (k : Nat) : Program × Except AllocError (List MethodStats) :=
  match p.sweep (allocateNext k) (p.nextId, []) with
  | (p, .ok (nextId, stats)) => (p.raiseNextId nextId, .ok stats)
  | (p, .error e) => (p, .error e)

/-- Allocates one method of a program. Its new body is kept in any case, and the next free number is
stored if the allocation succeeds. -/
def allocateAt? (p : Program) (ref : MethodRef) (k : Nat) :
    Option (Program × Allocated MethodStats) := do
  let m ← p.method? ref
  let allocated := allocateMethod m k p.nextId
  let p := p.setBody allocated.body ref
  match allocated.result with
  | .ok _ => return (p.raiseNextId allocated.nextId, allocated)
  | .error _ => return (p, allocated)

/-- Pins the parameters and arguments of all methods. -/
def pinCallingConvention (p : Program) : Program := p.mapMethods (·.pinCallingConvention)

end Ssa.Program

end MiniJava
