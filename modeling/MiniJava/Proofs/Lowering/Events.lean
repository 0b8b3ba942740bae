import MiniJava.Proofs.Lowering.Methods

/-!
# What happens while a method is lowered

Lowering reads a local where it comes to a variable, and binds it where it emits the copy of a
parameter, the initial value of a local, or an assignment. The code does not tell which of its
statements these are: an assignment of a local to itself looks like the copy of an operand. So the
events are listed along with the lowering, in its order, each with the position in the code where it
happens. In the same way the *roles* of the statements are listed, one for each statement that is
emitted: to take in a parameter, to give a local a value, to tie the values that a local has on two
paths, to keep an operand from being overwritten, or to compute something.
-/

namespace MiniJava.Ssa

open Ast Build

variable {α β : Type} {sc sc₁ sc₂ : Scope} {e : Expr} {op : Op} {payload : Payload} {es : List Expr}
  {v : StmtId}

inductive Event where
  /-- The local is read where it is bound to statement `b` and the next statement gets position `p`. -/
  | read (x : String) (b : StmtId) (p : Nat)
  /-- The statement at position `q` is emitted to bind the local. -/
  | bind (x : String) (q : Nat)
  deriving DecidableEq

def Build.eventsAfter {α β : Type} (action : Build α) (sc : Scope) (events : α → Scope → List β) :
    List β :=
  match action sc with
  | .ok a sc' => events a sc'
  | .error .. => []

theorem Build.eventsAfter_of_ok {action : Build α} {sc' : Scope} {a : α}
    (h : action sc = .ok a sc') (events : α → Scope → List β) :
    action.eventsAfter sc events = events a sc' := by
  rw [eventsAfter, h]

@[simp] theorem Build.eventsAfter_nil (action : Build α) (sc : Scope) :
    action.eventsAfter sc (fun _ _ => ([] : List β)) = [] := by
  rw [eventsAfter]
  split <;> rfl

@[simp] theorem Build.eventsAfter_pure (a : α) (sc : Scope) (events : α → Scope → List β) :
    (pure a : Build α).eventsAfter sc events = events a sc := rfl

def lowerOperand (e : Expr) (rebindsLater : Bool) : Build StmtId := do
  let v ← lowerExpr e
  hold v rebindsLater

/-! ## Events -/

mutual

def exprEvents : Expr → Scope → List Event
  | .var x, sc =>
    match sc.locals.find? x with
    | some b => [.read x b sc.body.length]
    | none => []
  | .assign (.var x) value, sc =>
    match sc.locals.find? x with
    | some _ =>
      exprEvents value sc ++ (lowerExpr value).eventsAfter sc fun _ sc₁ => [.bind x sc₁.body.length]
    | none => (emit .this).eventsAfter sc fun _ => exprEvents value
  | .binary _ left right, sc =>
    exprEvents left sc ++
      (lowerOperand left right.hasAssignment).eventsAfter sc fun _ => exprEvents right
  | .index target i, sc =>
    exprEvents target sc ++
      (lowerOperand target i.hasAssignment).eventsAfter sc fun _ => exprEvents i
  | .call target _ args, sc =>
    exprEvents target sc ++
      (lowerOperand target (anyAssignment args)).eventsAfter sc fun _ => argsEvents args
  | .assign (.member target _) value, sc =>
    exprEvents target sc ++
      (lowerOperand target value.hasAssignment).eventsAfter sc fun _ => exprEvents value
  | .assign (.index target i) value, sc =>
    exprEvents target sc ++
      (lowerOperand target (i.hasAssignment || value.hasAssignment)).eventsAfter sc fun _ sc₁ =>
        exprEvents i sc₁ ++
          (lowerOperand i value.hasAssignment).eventsAfter sc₁ fun _ => exprEvents value
  | .not operand, sc => exprEvents operand sc
  | .member target _, sc => exprEvents target sc
  | .newIntArray size, sc => exprEvents size sc
  | .assign _ _, _ | .newObject _, _ | .this, _ | .intLit _, _ | .boolLit _, _ => []

def argsEvents : List Expr → Scope → List Event
  | [], _ => []
  | e :: es, sc =>
    exprEvents e sc ++ (lowerOperand e (anyAssignment es)).eventsAfter sc fun _ => argsEvents es

end

theorem exprEvents_of_nodeOf? (h : nodeOf? e = some (op, payload)) (sc : Scope) :
    exprEvents e sc = argsEvents e.operands sc := by
  cases e <;> cases h <;> simp [exprEvents, argsEvents, Expr.operands, anyAssignment]

theorem argsEvents_cons_of_ok {held : StmtId} (hv : lowerExpr e sc = .ok v sc₁)
    (hh : hold v (anyAssignment es) sc₁ = .ok held sc₂) :
    argsEvents (e :: es) sc = exprEvents e sc ++ argsEvents es sc₂ := by
  have hheld : lowerOperand e (anyAssignment es) sc = .ok held sc₂ :=
    Build.bind_eq_ok.2 ⟨v, sc₁, hv, hh⟩
  rw [argsEvents, Build.eventsAfter_of_ok hheld]

mutual

def stmtEvents : Stmt → Scope → List Event
  | .block stmts, sc => stmtsEvents stmts sc
  | .ifThen id condition thenBranch, sc =>
    exprEvents condition sc ++ (lowerExpr condition).eventsAfter sc fun cond sc₁ =>
      stmtEvents thenBranch (sc₁.thenStart id cond)
  | .ifElse id condition thenBranch elseBranch, sc =>
    exprEvents condition sc ++ (lowerExpr condition).eventsAfter sc fun cond sc₁ =>
      stmtEvents thenBranch (sc₁.thenStart id cond) ++
        (lowerStmt thenBranch).eventsAfter (sc₁.thenStart id cond) fun _ sc₂ =>
          stmtEvents elseBranch (sc₂.elseStart id)
  | .while id condition body, sc =>
    exprEvents condition (sc.loopStart id) ++
      (lowerExpr condition).eventsAfter (sc.loopStart id) fun cond sc₁ =>
        stmtEvents body (sc₁.bodyStart id cond)
  | .print value, sc => exprEvents value sc
  | .expr value, sc => exprEvents value sc

def stmtsEvents : List Stmt → Scope → List Event
  | [], _ => []
  | s :: ss, sc => stmtEvents s sc ++ (lowerStmt s).eventsAfter sc fun _ => stmtsEvents ss

end

def boundFrom : Nat → List String → List Event
  | _, [] => []
  | q, x :: xs => .bind x q :: boundFrom (q + 1) xs

/-- What happens while a method is lowered. The statements of its parameters are followed by their
copies and by the initial values of its locals. -/
def methodEvents (m : MethodDecl) (sc : Scope) : List Event :=
  boundFrom m.params.length ((m.params ++ m.locals).map (·.name)) ++
    (lowerPrologue m).eventsAfter sc fun _ sc₁ =>
      stmtsEvents m.body sc₁ ++ (lowerStmts m.body).eventsAfter sc₁ fun _ => exprEvents m.result

theorem methodEvents_of_ok {m : MethodDecl} (h₁ : lowerPrologue m sc = .ok () sc₁)
    (h₂ : lowerStmts m.body sc₁ = .ok () sc₂) :
    methodEvents m sc = boundFrom m.params.length ((m.params ++ m.locals).map (·.name)) ++
      (stmtsEvents m.body sc₁ ++ exprEvents m.result sc₂) := by
  rw [methodEvents, Build.eventsAfter_of_ok h₁, Build.eventsAfter_of_ok h₂]

/-! ## Roles -/

inductive Role where
  /-- The incoming value of the parameter at a position. -/
  | incoming (position : Nat)
  /-- The copy of an incoming value that a parameter starts with. -/
  | param (x : String)
  /-- The null that a local starts with. -/
  | initial (x : String)
  /-- An assignment to a local. -/
  | assigned (x : String)
  /-- A tie of the values that a local has on two paths. -/
  | merged (x : String)
  /-- The copy of an operand that may be overwritten before it is used. -/
  | held
  /-- Anything else. -/
  | temporary
  deriving DecidableEq

namespace Role

def local? : Role → Option String
  | param x | initial x | assigned x | merged x => some x
  | incoming _ | held | temporary => none

def admits : Role → Op → Bool
  | incoming _, op => op == .parameter
  | param _, op | assigned _, op | held, op => op == .assignVar
  | initial _, op => op == .null
  | merged _, op => op == .unify
  | temporary, op =>
    !([.unify, .aliasOf, .parameter, .null, .store, .load, .assignVar] : List Op).contains op

end Role

/-- The role of the copy that is made to hold a value, if there is one. -/
def holdRoles (value : StmtId) (rebindsLater : Bool) (sc : Scope) : List Role :=
  match rebindsLater, sc.locals.nameOf? value with
  | true, some _ => [.held]
  | _, _ => []

def heldRoles (e : Expr) (rebindsLater : Bool) (sc : Scope) : List Role :=
  (lowerExpr e).eventsAfter sc fun v => holdRoles v rebindsLater

@[simp] theorem heldRoles_false (e : Expr) (sc : Scope) : heldRoles e false sc = [] :=
  Build.eventsAfter_nil (lowerExpr e) sc

mutual

def exprRoles : Expr → Scope → List Role
  | .var x, sc =>
    match sc.locals.find? x with
    | some _ => []
    | none => [.temporary, .temporary]
  | .assign (.var x) value, sc =>
    match sc.locals.find? x with
    | some _ => exprRoles value sc ++ [.assigned x]
    | none => .temporary :: (exprRoles value (sc.emit .this none none .none).2 ++ [.temporary])
  | .binary _ left right, sc =>
    exprRoles left sc ++ (heldRoles left right.hasAssignment sc ++
      (lowerOperand left right.hasAssignment).eventsAfter sc fun _ => exprRoles right) ++ [.temporary]
  | .index target i, sc =>
    exprRoles target sc ++ (heldRoles target i.hasAssignment sc ++
      (lowerOperand target i.hasAssignment).eventsAfter sc fun _ => exprRoles i) ++ [.temporary]
  | .call target _ args, sc =>
    exprRoles target sc ++ (heldRoles target (anyAssignment args) sc ++
      (lowerOperand target (anyAssignment args)).eventsAfter sc fun _ => argsRoles args) ++
      List.replicate args.length .temporary ++ [.temporary]
  | .assign (.member target _) value, sc =>
    exprRoles target sc ++ (heldRoles target value.hasAssignment sc ++
      (lowerOperand target value.hasAssignment).eventsAfter sc fun _ => exprRoles value) ++ [.temporary]
  | .assign (.index target i) value, sc =>
    exprRoles target sc ++ (heldRoles target (i.hasAssignment || value.hasAssignment) sc ++
      (lowerOperand target (i.hasAssignment || value.hasAssignment)).eventsAfter sc fun _ sc₁ =>
        exprRoles i sc₁ ++ (heldRoles i value.hasAssignment sc₁ ++
          (lowerOperand i value.hasAssignment).eventsAfter sc₁ fun _ => exprRoles value)) ++
      [.temporary]
  | .not operand, sc => exprRoles operand sc ++ [.temporary]
  | .member target _, sc => exprRoles target sc ++ [.temporary]
  | .newIntArray size, sc => exprRoles size sc ++ [.temporary]
  | .newObject _, _ | .this, _ | .intLit _, _ | .boolLit _, _ => [.temporary]
  | .assign _ _, _ => []

/-- The roles of the statements that the arguments of a call are lowered to. -/
def argsRoles : List Expr → Scope → List Role
  | [], _ => []
  | e :: es, sc =>
    exprRoles e sc ++ (heldRoles e (anyAssignment es) sc ++
      (lowerOperand e (anyAssignment es)).eventsAfter sc fun _ => argsRoles es)

end

theorem argsRoles_cons_of_ok {held : StmtId} (hv : lowerExpr e sc = .ok v sc₁)
    (hh : hold v (anyAssignment es) sc₁ = .ok held sc₂) :
    argsRoles (e :: es) sc =
      exprRoles e sc ++ (holdRoles v (anyAssignment es) sc₁ ++ argsRoles es sc₂) := by
  have hheld : lowerOperand e (anyAssignment es) sc = .ok held sc₂ :=
    Build.bind_eq_ok.2 ⟨v, sc₁, hv, hh⟩
  rw [argsRoles, heldRoles, Build.eventsAfter_of_ok hv, Build.eventsAfter_of_ok hheld]

theorem exprRoles_of_nodeOf? (h : nodeOf? e = some (op, payload)) (sc : Scope) :
    exprRoles e sc = argsRoles e.operands sc ++ [.temporary] := by
  cases e <;> cases h <;> simp [exprRoles, argsRoles, Expr.operands, anyAssignment]

mutual

def stmtRoles : Stmt → Scope → List Role
  | .block stmts, sc => stmtsRoles stmts sc
  | .ifThen id condition thenBranch, sc =>
    exprRoles condition sc ++ (lowerExpr condition).eventsAfter sc fun cond sc₁ =>
      .temporary :: (stmtRoles thenBranch (sc₁.thenStart id cond) ++
        (lowerStmt thenBranch).eventsAfter (sc₁.thenStart id cond) fun _ sc₂ =>
          [.temporary, .temporary] ++ .temporary :: (sc₂.tiedWith (sc₂.elseStart id)).map .merged)
  | .ifElse id condition thenBranch elseBranch, sc =>
    exprRoles condition sc ++ (lowerExpr condition).eventsAfter sc fun cond sc₁ =>
      .temporary :: (stmtRoles thenBranch (sc₁.thenStart id cond) ++
        (lowerStmt thenBranch).eventsAfter (sc₁.thenStart id cond) fun _ sc₂ =>
          [.temporary, .temporary] ++ (stmtRoles elseBranch (sc₂.elseStart id) ++
            (lowerStmt elseBranch).eventsAfter (sc₂.elseStart id) fun _ sc₃ =>
              .temporary :: (sc₂.tiedWith sc₃).map .merged))
  | .while id condition body, sc =>
    .temporary :: (exprRoles condition (sc.loopStart id) ++
      (lowerExpr condition).eventsAfter (sc.loopStart id) fun cond sc₁ =>
        .temporary :: (stmtRoles body (sc₁.bodyStart id cond) ++
          (lowerStmt body).eventsAfter (sc₁.bodyStart id cond) fun _ sc₂ =>
            [.temporary, .temporary] ++ ((sc₂.bodyEnd id).tiedByLoop sc₁.shadow?).map .merged))
  | .print value, sc => exprRoles value sc ++ [.temporary]
  | .expr value, sc => exprRoles value sc

def stmtsRoles : List Stmt → Scope → List Role
  | [], _ => []
  | s :: ss, sc => stmtRoles s sc ++ (lowerStmt s).eventsAfter sc fun _ => stmtsRoles ss

end

/-- The roles of the statements that a method is lowered to: its parameters, their copies, the initial
values of its locals, its body, its result and the return. -/
def methodRoles (m : MethodDecl) (sc : Scope) : List Role :=
  (List.range m.params.length).map .incoming ++ m.params.map (.param ·.name) ++
    m.locals.map (.initial ·.name) ++ (lowerPrologue m).eventsAfter sc fun _ sc₁ =>
      stmtsRoles m.body sc₁ ++ (lowerStmts m.body).eventsAfter sc₁ fun _ sc₂ =>
        exprRoles m.result sc₂ ++ [.temporary]

def mainRoles (main : MainClass) (sc : Scope) : List Role := stmtRoles main.body sc.beginMethod

end MiniJava.Ssa
