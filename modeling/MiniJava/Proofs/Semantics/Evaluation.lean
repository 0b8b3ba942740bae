import MiniJava.Proofs.Semantics.Effect

/-!
# Evaluation of syntax trees

The meaning of a method, read off its syntax tree. Operands are evaluated from left to right and each
keeps the value it had when it was evaluated; an assignment has the assigned value; `&&` and `||`
evaluate both operands; and a name that is no local is a field of the receiver.
-/

namespace MiniJava

open Ast

structure Env where
  locals : String → Option Value
  budget : Nat

namespace Env

def set (env : Env) (name : String) (v : Value) : Env :=
  { env with locals := fun x => if x = name then some v else env.locals x }

theorem set_eq_self {env : Env} {name : String} {v : Value} (h : env.locals name = some v) :
    env.set name v = env := by
  have hlocals : (fun x => if x = name then some v else env.locals x) = env.locals := by
    funext x
    split
    · next hx => rw [hx, h]
    · rfl
  rw [set, hlocals]

end Env

abbrev Eval := StateT Env Effect

def tick : Eval Unit := do
  match (← get).budget with
  | 0 => throw .unfinished
  | n + 1 => modify fun env => { env with budget := n }

theorem run_tick_of_zero {env : Env} (h : env.budget = 0) : tick.run env = throw .unfinished := by
  cases env
  cases h
  rfl

theorem run_tick_of_succ {env : Env} {n : Nat} (h : env.budget = n + 1) :
    tick.run env = pure ((), { env with budget := n }) := by
  cases env
  cases h
  rfl

/-! ## Expressions -/

mutual

def evalExpr (act : Activation) : Expr → Eval Value
  | .intLit n => pure (.int n)
  | .boolLit b => pure (.bool b)
  | .this => act.receiver
  | .var name => do
    match (← get).locals name with
    | some v => return v
    | none => readMember (← act.receiver) name
  | .binary op left right => do
    let a ← evalExpr act left
    let b ← evalExpr act right
    op.apply a b
  | .not operand => do
    let v ← evalExpr act operand
    v.negate
  | .index target index => do
    let t ← evalExpr act target
    let i ← evalExpr act index
    readIndex t i
  | .member target name => do
    let t ← evalExpr act target
    readMember t name
  | .call target method args => do
    let t ← evalExpr act target
    let vs ← evalArgs act args
    send act.runtime t method vs
  | .newObject name => newObject act.runtime name
  | .newIntArray size => do
    let n ← evalExpr act size
    newArray n
  | .assign (.var name) value => do
    match (← get).locals name with
    | some _ =>
      let v ← evalExpr act value
      modify (·.set name v)
      return v
    | none =>
      let t ← act.receiver
      let v ← evalExpr act value
      writeMember t v name
      return v
  | .assign (.member target name) value => do
    let t ← evalExpr act target
    let v ← evalExpr act value
    writeMember t v name
    return v
  | .assign (.index target index) value => do
    let t ← evalExpr act target
    let i ← evalExpr act index
    let v ← evalExpr act value
    writeIndex t v i
    return v
  | .assign _ _ => fault .malformed

def evalArgs (act : Activation) : List Expr → Eval (List Value)
  | [] => pure []
  | e :: es => do
    let v ← evalExpr act e
    let vs ← evalArgs act es
    return v :: vs

end

/-! ## Statements -/

def evalCondition (act : Activation) (condition : Expr) : Eval Bool := do
  let v ← evalExpr act condition
  v.toBool

def iterate (condition : Eval Bool) (body : Eval Unit) : Nat → Eval Unit
  | 0 => throw .unfinished
  | n + 1 => do
    if ← condition then
      body
      tick
      iterate condition body n

/-- A loop. Each round but the last uses up a unit of the budget, so the number of rounds is bounded
by the budget and not by this definition. -/
def repeatWhile (condition : Eval Bool) (body : Eval Unit) : Eval Unit := do
  iterate condition body ((← get).budget + 1)

mutual

def execStmt (act : Activation) : Stmt → Eval Unit
  | .block stmts => execStmts act stmts
  | .ifThen _ condition thenBranch => do
    if ← evalCondition act condition then execStmt act thenBranch
  | .ifElse _ condition thenBranch elseBranch => do
    if ← evalCondition act condition then execStmt act thenBranch else execStmt act elseBranch
  | .while _ condition body => repeatWhile (evalCondition act condition) (execStmt act body)
  | .print value => do
    let v ← evalExpr act value
    printInt v
  | .expr value => do
    let _ ← evalExpr act value

def execStmts (act : Activation) : List Stmt → Eval Unit
  | [] => pure ()
  | s :: ss => do
    execStmt act s
    execStmts act ss

end

/-! ## Methods -/

def bindParams : List VarDecl → List Value → Eval Unit
  | [], _ => pure ()
  | param :: params, v :: vs => do
    modify (·.set param.name v)
    bindParams params vs
  | _ :: _, [] => fault .missingArgument

def bindLocals : List VarDecl → Eval Unit
  | [] => pure ()
  | decl :: decls => do
    modify (·.set decl.name (.initial decl.type))
    bindLocals decls

def evalMethod (act : Activation) (m : MethodDecl) (budget : Nat) : Effect Value :=
  (do
    bindParams m.params act.args
    bindLocals m.locals
    execStmts act m.body
    evalExpr act m.result : Eval Value).run' ⟨fun _ => none, budget⟩

def evalMain (act : Activation) (main : MainClass) (budget : Nat) : Effect Value :=
  (do
    execStmt act main.body
    return .null : Eval Value).run' ⟨fun _ => none, budget⟩

end MiniJava
