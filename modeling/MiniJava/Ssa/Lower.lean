import MiniJava.Ssa.Scope

/-!
# From syntax trees to linear code

Each method is walked once. An expression becomes the statements that compute its parts from left to
right, and then the statement that holds its value; a local is the statement that currently holds it.
Where two paths join, each local that one of them rebound gets a `unify` of its two values.
-/

namespace MiniJava.Ssa

open Ast Build

/-! ## Expressions -/

/-- Copies a value out of its local if something evaluated later may rebind that local: a join ties
the old and the new value of a local together, so a plain reference would see the new one. -/
def hold (value : StmtId) (rebindsLater : Bool) : Build StmtId := do
  match rebindsLater, (← get).locals.nameOf? value with
  | true, some name => emit .assignVar (some value) (some value) (.name name)
  | _, _ => return value

/-- Emits the arguments of a call back to back, counting from a position. -/
def emitArgs : Nat → List StmtId → Build (List StmtId)
  | _, [] => return []
  | position, value :: values => do
    let arg ← emit .arg (some value) none (.position position)
    return arg :: (← emitArgs (position + 1) values)

mutual

/-- Lowers an expression and returns the statement that holds its value. -/
def lowerExpr : Expr → Build StmtId
  | .intLit n => emit .int none none (.int n)
  | .boolLit b => emit .boolean none none (.bool b)
  | .this => emit .this
  | .var name => do
    match ← local? name with
    | some value => return value
    | none =>
      let this ← emit .this
      emit .member (some this) none (.name name)
  | .binary op left right => do
    let l ← lowerExpr left
    let l ← hold l right.hasAssignment
    let r ← lowerExpr right
    emit (.binary op) (some l) (some r)
  | .not operand => do
    let v ← lowerExpr operand
    emit .not (some v)
  | .index target index => do
    let t ← lowerExpr target
    let t ← hold t index.hasAssignment
    let i ← lowerExpr index
    emit .index (some t) (some i)
  | .member target name => do
    let t ← lowerExpr target
    emit .member (some t) none (.name name)
  | .call target method args => do
    let t ← lowerExpr target
    let t ← hold t (anyAssignment args)
    let values ← lowerArgs args
    let args ← emitArgs 0 values
    emit .call (some t) none (.call method args)
  | .newObject name => emit .newObject none none (.name name)
  | .newIntArray size => do
    let s ← lowerExpr size
    emit .newIntArray (some s)
  | .assign (.var name) value => do
    match ← local? name with
    | some old =>
      let v ← lowerExpr value
      let new ← emit .assignVar (some v) (some old) (.name name)
      rebind name new
      return v
    | none =>
      let this ← emit .this
      let v ← lowerExpr value
      let _ ← emit .assignMember (some this) (some v) (.name name)
      return v
  | .assign (.member target name) value => do
    let t ← lowerExpr target
    let t ← hold t value.hasAssignment
    let v ← lowerExpr value
    let _ ← emit .assignMember (some t) (some v) (.name name)
    return v
  | .assign (.index target index) value => do
    let t ← lowerExpr target
    let t ← hold t (index.hasAssignment || value.hasAssignment)
    let i ← lowerExpr index
    let i ← hold i value.hasAssignment
    let v ← lowerExpr value
    let _ ← emit .assignIndex (some t) (some v) (.index i)
    return v
  | .assign _ _ => throw .invalidAssignmentTarget

/-- Lowers the arguments of a call and returns the statements that hold their values. -/
def lowerArgs : List Expr → Build (List StmtId)
  | [] => return []
  | e :: es => do
    let v ← lowerExpr e
    let v ← hold v (anyAssignment es)
    return v :: (← lowerArgs es)

end

/-! ## Statements -/

def elseLabel (id : NodeId) : String := s!"lif_{id}_else"

def doneLabel (id : NodeId) : String := s!"lif_{id}_done"

def startLabel (id : NodeId) : String := s!"lwhile_{id}_start"

def endLabel (id : NodeId) : String := s!"lwhile_{id}_end"

def placeLabel (label : String) : Build Unit := do
  let _ ← emit .label none none (.label label)

def jumpTo (label : String) : Build Unit := do
  let _ ← emit .jump none none (.label label)

def jumpUnless (condition : StmtId) (label : String) : Build Unit := do
  let _ ← emit .branchUnless (some condition) none (.label label)

/-- Merges the values that a local has at the end of the two branches of an `if`; a branch that left
it alone has the value from before. -/
def joinLocal (thenValues elseValues : Bindings) (name : String) : Build Unit := do
  match ← local? name with
  | none => return ()
  | some before =>
    let t := (thenValues.find? name).getD before
    let e := (elseValues.find? name).getD before
    let merged ← emit .unify (some t) (some e)
    rebind name merged

/-- Lowers an `if` whose branches are given as actions. -/
def branch (id : NodeId) (condition : Expr) (thenBranch elseBranch : Build Unit) : Build Unit := do
  let cond ← lowerExpr condition
  jumpUnless cond (elseLabel id)
  let outer? ← openShadow
  thenBranch
  jumpTo (doneLabel id)
  placeLabel (elseLabel id)
  let thenValues ← restore (← closeShadow none)
  let _ ← openShadow
  elseBranch
  placeLabel (doneLabel id)
  let elseValues ← restore (← closeShadow outer?)
  (thenValues.union elseValues).names.forM (joinLocal thenValues elseValues)

/-- Lowers a loop whose body is given as an action. Two levels are open: one around the condition and
one around the body. A condition level that captured nothing is skipped when they are closed. -/
def loop (id : NodeId) (condition : Expr) (body : Build Unit) : Build Unit := do
  let outer? ← openShadow
  placeLabel (startLabel id)
  let cond ← lowerExpr condition
  let conditionLevel? ← openShadow
  jumpUnless cond (endLabel id)
  body
  jumpTo (startLabel id)
  placeLabel (endLabel id)
  match conditionLevel? with
  | some level =>
    if level.isEmpty then
      mergeUp (← closeShadow outer?)
    else
      mergeUp (← closeShadow (some level))
      mergeUp (← closeShadow outer?)
  | none => mergeUp (← closeShadow outer?)

mutual

def lowerStmt : Stmt → Build Unit
  | .block stmts => lowerStmts stmts
  | .ifThen id condition thenBranch => branch id condition (lowerStmt thenBranch) (pure ())
  | .ifElse id condition thenBranch elseBranch =>
    branch id condition (lowerStmt thenBranch) (lowerStmt elseBranch)
  | .while id condition body => loop id condition (lowerStmt body)
  | .print value => do
    let v ← lowerExpr value
    let _ ← emit .print (some v)
  | .expr value => do
    let _ ← lowerExpr value

def lowerStmts : List Stmt → Build Unit
  | [] => return ()
  | s :: ss => do
    lowerStmt s
    lowerStmts ss

end

/-! ## Methods and programs -/

def lowerMain (main : MainClass) : Build Method := do
  beginMethod
  lowerStmt main.body
  return { name := "main", owner? := none, body := ← takeBody }

/-- Declares the parameters, counting from a position, and returns their incoming values. -/
def declareParams : Nat → List VarDecl → Build (List StmtId)
  | _, [] => return []
  | position, param :: params => do
    let value ← emit .parameter none none (.position position)
    declare param.name value
    return value :: (← declareParams (position + 1) params)

/-- Copies a parameter out of its incoming place, which leaves the argument registers free. -/
def copyParam (name : String) (value : StmtId) : Build Unit := do
  let copy ← emit .assignVar (some value) (some value) (.name name)
  modify fun sc => { sc with locals := sc.locals.insert name copy }

/-- Declares a local, which is null until it is assigned. -/
def declareLocal (decl : VarDecl) : Build Unit := do
  let value ← emit .null none none (.type decl.type)
  declare decl.name value

def lowerMethod (owner : String) (m : MethodDecl) : Build Method := do
  beginMethod
  let incoming ← declareParams 0 m.params
  (m.params.zip incoming).forM fun (param, value) => copyParam param.name value
  m.locals.forM declareLocal
  lowerStmts m.body
  let result ← lowerExpr m.result
  let _ ← emit .ret (some result)
  return {
    name := m.name, owner? := some owner, params := m.params, returnDecl? := some m.returnType,
    body := ← takeBody }

/-- The first name of a list that occurs in it before. -/
def firstRepeated? : List String → List String → Option String
  | _, [] => none
  | seen, name :: names =>
    if seen.contains name then some name else firstRepeated? (name :: seen) names

/-- Lowers the methods of a class in order. A method whose name the class declares more than once is
rejected when its turn comes. -/
def lowerMethods (owner : String) (all : List MethodDecl) : List MethodDecl → Build (List Method)
  | [] => return []
  | m :: ms => do
    if (all.filter (·.name == m.name)).length > 1 then
      throw (.duplicateMethod m.name owner)
    let method ← lowerMethod owner m
    return method :: (← lowerMethods owner all ms)

def lowerClass (c : ClassDecl) : Build ClassDef := do
  if let some field := firstRepeated? [] (c.fields.map (·.name)) then
    throw (.duplicateField field c.name)
  let methods ← lowerMethods c.name c.methods c.methods
  return {
    name := c.name, parent? := c.parent?,
    fields := c.fields.map fun f => { name := f.name, decl := f.type }, methods }

/-- Lowers classes in order, given the names of the classes before them. -/
def lowerClasses : List String → List ClassDecl → Build (List ClassDef)
  | _, [] => return []
  | seen, c :: cs => do
    if seen.contains c.name then
      throw (.duplicateClass c.name)
    let lowered ← lowerClass c
    return lowered :: (← lowerClasses (c.name :: seen) cs)

def lowerProgram (p : Ast.Program) : Build Program := do
  let main ← lowerMain p.main
  let classes ← lowerClasses [] p.classes
  return { main, classes, nextId := (← get).nextId }

/-- The linear code of a program, or the first structural error in it. -/
def Program.ofAst (p : Ast.Program) : Except StructuralError Program :=
  match (lowerProgram p).run {} with
  | .ok program _ => .ok program
  | .error e _ => .error e

end MiniJava.Ssa
