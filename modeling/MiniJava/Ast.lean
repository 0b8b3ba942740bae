/-!
# Syntax trees

A program is one main class, whose body is a single statement, and a list of classes with fields and
methods. A method declares its locals first and ends with the expression it returns. Every `if` and
`while` carries a number that is unique in the program; the labels of its code are named after it.
-/

namespace MiniJava

abbrev NodeId := Nat

inductive TypeName where
  | int
  | boolean
  | intArray
  | named (name : String)
  deriving DecidableEq, Repr

namespace TypeName

def text : TypeName → String
  | int => "int"
  | boolean => "boolean"
  | intArray => "int[]"
  | named name => name

end TypeName

inductive BinOp where
  | add
  | sub
  | mul
  | div
  | mod
  | lt
  | le
  | gt
  | ge
  | eq
  | ne
  | and
  | or
  deriving DecidableEq, Repr

namespace Ast

/-- Expressions. An assignment has the assigned value. -/
inductive Expr where
  | assign (target value : Expr)
  | binary (op : BinOp) (left right : Expr)
  | not (operand : Expr)
  | index (target index : Expr)
  | member (target : Expr) (name : String)
  | call (target : Expr) (method : String) (args : List Expr)
  | newObject (name : String)
  | newIntArray (size : Expr)
  | this
  | var (name : String)
  | intLit (value : Int32)
  | boolLit (value : Bool)
  deriving Repr, BEq

inductive Stmt where
  | block (stmts : List Stmt)
  | ifThen (id : NodeId) (condition : Expr) (thenBranch : Stmt)
  | ifElse (id : NodeId) (condition : Expr) (thenBranch elseBranch : Stmt)
  | while (id : NodeId) (condition : Expr) (body : Stmt)
  | print (value : Expr)
  | expr (value : Expr)
  deriving Repr, BEq

structure VarDecl where
  type : TypeName
  name : String
  deriving Repr, DecidableEq

/-- A method: its locals are declared before its statements, and `result` is returned at the end. -/
structure MethodDecl where
  returnType : TypeName
  name : String
  params : List VarDecl
  locals : List VarDecl
  body : List Stmt
  result : Expr
  deriving Repr, BEq

structure ClassDecl where
  name : String
  parent? : Option String
  fields : List VarDecl
  methods : List MethodDecl
  deriving Repr, BEq

structure MainClass where
  name : String
  body : Stmt
  deriving Repr, BEq

structure Program where
  main : MainClass
  classes : List ClassDecl
  deriving Repr, BEq

mutual

/-- Whether evaluating the expression assigns anywhere inside it. -/
def Expr.hasAssignment : Expr → Bool
  | .assign _ _ => true
  | .binary _ left right => left.hasAssignment || right.hasAssignment
  | .not operand => operand.hasAssignment
  | .index target index => target.hasAssignment || index.hasAssignment
  | .member target _ => target.hasAssignment
  | .call target _ args => target.hasAssignment || anyAssignment args
  | .newIntArray size => size.hasAssignment
  | .newObject _ | .this | .var _ | .intLit _ | .boolLit _ => false

/-- Whether evaluating one of the expressions assigns anywhere. -/
def anyAssignment : List Expr → Bool
  | [] => false
  | e :: es => e.hasAssignment || anyAssignment es

end

/-- Whether the expression may stand on the left of an assignment. -/
def Expr.isAssignable : Expr → Bool
  | .var _ | .member _ _ | .index _ _ => true
  | _ => false

end Ast

end MiniJava
