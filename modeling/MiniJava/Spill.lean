import MiniJava.Liveness

/-!
# Spill code

A spilled variable lives in a stack slot. Each statement that reads it is preceded by one load, which
serves all its reads there, and each statement that writes it is followed by a store if the value is
read later.
-/

namespace MiniJava

open Ssa

namespace Spill

/-- The variables that some statement other than a store reads. -/
def readOutside (body : Body) (live : Liveness) : VarSet :=
  .unions ((body.zip live.uses).filterMap fun (s, uses) => if s.op = .store then none else some uses)

/-- The variables that some statement other than a load writes. -/
def writtenOutside (body : Body) (live : Liveness) : VarSet :=
  .ofList ((body.zip live.defs).filterMap fun (s, def?) => if s.op = .load then none else def?)

/-- The variables that may be spilled. Reloads, values that are only stored and values that nobody
reads would come back unchanged. -/
def candidates (body : Body) (live : Liveness) : VarSet :=
  (readOutside body live).inter (writtenOutside body live)

/-- The choice of spilled variables: each with its slot. -/
abbrev Slots := List (Nat × Nat)

/-- The type of a variable, that of its first member with a type. -/
def typeOf? (body : Body) (vs : Variables) (v : Nat) : Option TypeId := do
  let var ← vs.all[v]?
  var.members.findSome? fun m => body[m]?.bind (·.type?)

/-- A statement whose reads are being redirected: the loads that go before it, the load of each
variable so far, and the next free statement number. -/
structure Reloading where
  stmt : Statement
  loads : List Statement
  loaded : List (Nat × StmtId)
  nextId : StmtId

/-- Redirects the reads of one operand, if its variable is spilled. -/
def reload (body : Body) (vs : Variables) (slots : Slots) (r : Reloading) (operand : StmtId) :
    Reloading :=
  match vs.of? operand with
  | none => r
  | some v =>
    match slots.lookup v with
    | none => r
    | some slot =>
      match r.loaded.lookup v with
      | some load => { r with stmt := r.stmt.replaceUse operand load }
      | none =>
        let load : Statement :=
          { id := r.nextId, op := .load, payload := .slot slot, type? := typeOf? body vs v }
        { stmt := r.stmt.replaceUse operand load.id
          loads := r.loads ++ [load]
          loaded := (v, load.id) :: r.loaded
          nextId := r.nextId + 1 }

/-- The slot into which the result of a statement is stored. -/
def storeSlot? (live : Liveness) (slots : Slots) (position : Nat) : Option Nat := do
  let v ← (live.defs[position]?).join
  if live.isLiveAfter position v then slots.lookup v else none

/-- The code of one statement, and the next free statement number. -/
def spillStmt (body : Body) (vs : Variables) (live : Liveness) (slots : Slots) (position : Nat)
    (nextId : StmtId) (s : Statement) : Body × StmtId :=
  let r := s.uses.foldl (reload body vs slots) ⟨s, [], [], nextId⟩
  match storeSlot? live slots position with
  | none => (r.loads ++ [r.stmt], r.nextId)
  | some slot =>
    let store : Statement :=
      { id := r.nextId, op := .store, left? := some s.id, payload := .slot slot, type? := s.type? }
    (r.loads ++ [r.stmt, store], r.nextId + 1)

/-- The code of the statements from a position on. -/
def spillFrom (body : Body) (vs : Variables) (live : Liveness) (slots : Slots) :
    Nat → StmtId → Body → Body × StmtId
  | _, nextId, [] => ([], nextId)
  | position, nextId, s :: rest =>
    let (code, nextId) := spillStmt body vs live slots position nextId s
    let (more, nextId) := spillFrom body vs live slots (position + 1) nextId rest
    (code ++ more, nextId)

/-- A body with spill code, and the next free statement number. -/
def spillBody (body : Body) (vs : Variables) (live : Liveness) (slots : Slots) (nextId : StmtId) :
    Body × StmtId :=
  spillFrom body vs live slots 0 nextId body

end Spill

end MiniJava
