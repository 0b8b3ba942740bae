import MiniJava.CallingConvention
import MiniJava.Proofs.Results
import MiniJava.Proofs.Semantics.Effect
import MiniJava.Variables

/-!
# Execution of linear code

A machine executes the statements of a body one after the other. Where the value of a statement is
kept is a parameter of the machine: *cells*, of which statements tied together by merges share one,
or *registers*, as an allocation assigned them. Spilled values are kept in slots. An activation has
places and slots of its own.
-/

namespace MiniJava

open Ssa

namespace Ssa.Statement

/-- The statements whose values are needed to execute the statement. An assignment to a local also
names the value that the local had, but only for its type. -/
def reads (s : Statement) : List StmtId :=
  if s.op = .assignVar then s.left?.toList else s.uses

end Ssa.Statement

/-! ## Statements -/

inductive Outcome where
  /-- The statement has a value. -/
  | value (v : Value)
  | nothing
  | jump (label : String)
  | leave (v : Value)
  /-- A value goes to a slot. -/
  | save (slot : Nat) (v : Value)
  /-- The statement has the value of a slot. -/
  | restore (slot : Nat)
  deriving DecidableEq

def branchOn (taken : Bool) (condition : Value) (label : String) : Effect Outcome := do
  return if (← condition.toBool) = taken then .jump label else .nothing

def perform (act : Activation) : Op → Payload → List Value → Effect Outcome
  | .unify, _, _ | .aliasOf, _, _ | .label, _, _ => pure .nothing
  | .this, _, _ => .value <$> act.receiver
  | .parameter, .position p, _ =>
    match act.args[p]? with
    | some v => pure (.value v)
    | none => fault .missingArgument
  | .arg, _, [v] | .assignVar, _, [v] => pure (.value v)
  | .null, .type t, _ => pure (.value (.initial t))
  | .null, _, _ => pure (.value .null)
  | .int, .int n, _ => pure (.value (.int n))
  | .boolean, .bool b, _ => pure (.value (.bool b))
  | .newObject, .name className, _ => .value <$> newObject act.runtime className
  | .newIntArray, _, [size] => .value <$> newArray size
  | .jump, .label l, _ => pure (.jump l)
  | .branchIf, .label l, [condition] => branchOn true condition l
  | .branchUnless, .label l, [condition] => branchOn false condition l
  | .call, .call method _, receiver :: args => .value <$> send act.runtime receiver method args
  | .print, _, [v] => do printInt v; return .nothing
  | .ret, _, [v] => pure (.leave v)
  | .member, .name name, [target] => .value <$> readMember target name
  | .index, _, [target, index] => .value <$> readIndex target index
  | .store, .slot n, [v] => pure (.save n v)
  | .load, .slot n, _ => pure (.restore n)
  | .assignMember, .name name, [target, v] => do writeMember target v name; return .nothing
  | .assignIndex, _, [target, v, index] => do writeIndex target v index; return .nothing
  | .not, _, [v] => .value <$> v.negate
  | .binary op, _, [a, b] => .value <$> op.apply a b
  | _, _, _ => fault .malformed

/-! ## Machines -/

structure Store (Place : Type) where
  values : Place → Option Value
  slots : Nat → Option Value

namespace Store

variable {Place : Type}

def empty : Store Place := ⟨fun _ => none, fun _ => none⟩

def put [DecidableEq Place] (σ : Store Place) (p : Place) (v : Value) : Store Place :=
  { σ with values := fun q => if q = p then some v else σ.values q }

def save (σ : Store Place) (slot : Nat) (v : Value) : Store Place :=
  { σ with slots := fun n => if n = slot then some v else σ.slots n }

end Store

inductive Control where
  | next
  | jump (label : String)
  | leave (v : Value)
  deriving DecidableEq

/-- A body, where the values of its statements are kept, and the surroundings in which it runs. -/
structure Machine (Place : Type) where
  code : Body
  place? : StmtId → Option Place
  activation : Activation

namespace Machine

variable {Place : Type} [DecidableEq Place] (M : Machine Place)

def read? (σ : Store Place) (id : StmtId) : Option Value := (M.place? id).bind σ.values

def fetch (σ : Store Place) (ids : List StmtId) : Effect (List Value) :=
  match ids.mapM (M.read? σ) with
  | some values => pure values
  | none => fault .unwritten

def define (σ : Store Place) (id : StmtId) (v : Value) : Effect (Store Place) :=
  match M.place? id with
  | some p => pure (σ.put p v)
  | none => fault .malformed

def settle (σ : Store Place) (id : StmtId) : Outcome → Effect (Store Place × Control)
  | .value v => do return (← M.define σ id v, .next)
  | .nothing => pure (σ, .next)
  | .jump l => pure (σ, .jump l)
  | .leave v => pure (σ, .leave v)
  | .save slot v => pure (σ.save slot v, .next)
  | .restore slot =>
    match σ.slots slot with
    | some v => do return (← M.define σ id v, .next)
    | none => fault .unwritten

def step (σ : Store Place) (s : Statement) : Effect (Store Place × Control) := do
  let values ← M.fetch σ s.reads
  let outcome ← perform M.activation s.op s.payload values
  M.settle σ s.id outcome

/-- Executes the body from a position on within a budget. A body that ends without returning has no
result, for which `null` stands. -/
def run (budget pc : Nat) (σ : Store Place) : Effect Value :=
  match _h : M.code[pc]? with
  | none => pure .null
  | some s => do
    match ← M.step σ s with
    | (σ, .next) => run budget (pc + 1) σ
    | (_, .leave v) => return v
    | (σ, .jump label) =>
      match M.code.labelPosition? label with
      | none => fault .unknownName
      | some target =>
        if target ≤ pc then
          match budget with
          | 0 => throw .unfinished
          | n + 1 => run n target σ
        else run budget target σ
termination_by (budget, M.code.length - pc)
decreasing_by
  · have := lt_of_getElem? _h
    exact Prod.Lex.right _ (by omega)
  · exact Prod.Lex.left _ _ (Nat.lt_succ_self n)
  · have := lt_of_getElem? _h
    exact Prod.Lex.right _ (by omega)

def exec (budget : Nat) : Effect Value := M.run budget 0 .empty

/-! ## Running -/

def resume (budget pc : Nat) : Store Place × Control → Effect Value
  | (σ, .next) => M.run budget (pc + 1) σ
  | (_, .leave v) => pure v
  | (σ, .jump label) =>
    match M.code.labelPosition? label with
    | none => fault .unknownName
    | some target =>
      if target ≤ pc then
        match budget with
        | 0 => throw .unfinished
        | n + 1 => M.run n target σ
      else M.run budget target σ

variable {M} {budget pc : Nat} {σ : Store Place} {s : Statement} {values : List Value}

theorem run_of_length_le (h : M.code.length ≤ pc) : M.run budget pc σ = pure .null := by
  have hnone : M.code[pc]? = none := List.getElem?_eq_none_iff.2 h
  rw [run]
  split
  · rfl
  · rename_i hs
    rw [hnone] at hs
    cases hs

theorem run_of_getElem? (h : M.code[pc]? = some s) :
    M.run budget pc σ = M.step σ s >>= M.resume budget pc := by
  rw [run]
  split
  · rename_i hs
    rw [h] at hs
    cases hs
  · rename_i t ht
    obtain rfl := Option.mem_unique h ht
    refine congrArg (M.step σ s >>= ·) (funext fun r => ?_)
    obtain ⟨σ', c⟩ := r
    cases c <;> rfl

theorem step_eq (hr : s.reads.mapM (M.read? σ) = some values) :
    M.step σ s = perform M.activation s.op s.payload values >>= M.settle σ s.id := by
  rw [step, fetch, hr]
  rfl

section

variable (h : M.code[pc]? = some s) (hr : s.reads.mapM (M.read? σ) = some values)
include h hr

theorem run_of_value {eff : Effect Value} {p : Place}
    (hp : perform M.activation s.op s.payload values = .value <$> eff)
    (hplace : M.place? s.id = some p) :
    M.run budget pc σ = eff >>= fun v => M.run budget (pc + 1) (σ.put p v) := by
  have hdefine : ∀ v, M.define σ s.id v = pure (σ.put p v) := by
    intro v
    rw [define, hplace]
  rw [run_of_getElem? h, step_eq hr, hp]
  simp only [map_eq_pure_bind, bind_assoc, pure_bind, settle, hdefine, resume]

theorem run_of_nothing {eff : Effect Unit}
    (hp : perform M.activation s.op s.payload values = eff >>= fun _ => pure .nothing) :
    M.run budget pc σ = eff >>= fun _ => M.run budget (pc + 1) σ := by
  rw [run_of_getElem? h, step_eq hr, hp]
  simp only [bind_assoc, pure_bind, settle, resume]

theorem run_of_leave {v : Value}
    (hp : perform M.activation s.op s.payload values = pure (.leave v)) :
    M.run budget pc σ = pure v := by
  rw [run_of_getElem? h, step_eq hr, hp]
  simp only [pure_bind, settle, resume]

theorem run_of_jump {l : String} {target : Nat}
    (hp : perform M.activation s.op s.payload values = pure (.jump l))
    (hl : M.code.labelPosition? l = some target) (hlt : pc < target) :
    M.run budget pc σ = M.run budget target σ := by
  rw [run_of_getElem? h, step_eq hr, hp]
  simp only [pure_bind, settle, resume, hl, if_neg (Nat.not_le.2 hlt)]

theorem run_of_jump_back {l : String} {target : Nat}
    (hp : perform M.activation s.op s.payload values = pure (.jump l))
    (hl : M.code.labelPosition? l = some target) (hle : target ≤ pc) :
    M.run budget pc σ =
      match budget with
      | 0 => throw .unfinished
      | n + 1 => M.run n target σ := by
  rw [run_of_getElem? h, step_eq hr, hp]
  simp only [pure_bind, settle, resume, hl, if_pos hle]

theorem run_of_branch {l : String} {target : Nat} {taken : Bool} {condition : Value}
    (hp : perform M.activation s.op s.payload values = branchOn taken condition l)
    (hl : M.code.labelPosition? l = some target) (hlt : pc < target) :
    M.run budget pc σ = condition.toBool >>= fun b =>
      if b = taken then M.run budget target σ else M.run budget (pc + 1) σ := by
  rw [run_of_getElem? h, step_eq hr, hp, branchOn]
  simp only [bind_assoc, pure_bind]
  refine congrArg (condition.toBool >>= ·) (funext fun b => ?_)
  by_cases hb : b = taken
  · simp only [if_pos hb, settle, pure_bind, resume, hl, if_neg (Nat.not_le.2 hlt)]
  · simp only [if_neg hb, settle, pure_bind, resume]

end

theorem read?_put (σ : Store Place) (p : Place) (v : Value) (id : StmtId) :
    M.read? (σ.put p v) id = if M.place? id = some p then some v else M.read? σ id := by
  unfold read? Store.put
  cases M.place? id with
  | none => rfl
  | some q =>
    by_cases hq : q = p
    · simp [hq]
    · simp [hq]

end Machine

/-! ## Cells -/

/-- The cell of a statement. The statements that merges tie together own one, which is named after
the first of them. -/
def Ssa.Body.cell? (body : Body) (id : StmtId) : Option Nat :=
  (body.tracked.reverse.find? (·.1.id == id)).map (·.2.2)

def cellMachine (body : Body) (act : Activation) : Machine Nat := ⟨body, body.cell?, act⟩

/-! ## Registers -/

/-- Where an allocated statement keeps its value: in a register, or in the word of the outgoing stack
area that belongs to an argument's position. -/
inductive Home where
  | register (n : Nat)
  | outgoing (position : Nat)
  deriving DecidableEq

def Ssa.Statement.home? (s : Statement) : Option Home :=
  match s.op, s.position? with
  | .arg, some position =>
    if position < Register.arguments.length then s.register?.map .register
    else some (.outgoing position)
  | _, _ => s.register?.map .register

/-- The machine that keeps values in the homes that an allocation assigned. -/
def registerMachine (body : Body) (act : Activation) : Machine Home :=
  ⟨body, fun id => (body.last? id).bind (·.home?), act⟩

end MiniJava
