import MiniJava.Ast
import MiniJava.TypeTable

/-!
# Statements of linear code

Linear code is a list of statements. A statement has a number, an operation, at most two operands
that name other statements by their numbers, and a payload whose meaning depends on the operation.
Types, registers and pins are filled in by later passes. Control flow is explicit, and statements
that hold the values of one source variable along different paths are tied together by `unify`.
-/

namespace MiniJava.Ssa

abbrev StmtId := Nat

inductive Op where
  /-- Ties the values of one variable that meet at a join. -/
  | unify
  /-- Ties a statement to another one. -/
  | aliasOf
  | this
  | parameter
  | arg
  /-- The value of a local before its first assignment. -/
  | null
  | int
  | boolean
  | newObject
  | newIntArray
  | label
  | jump
  | branchIf
  | branchUnless
  | call
  | print
  | ret
  | member
  | index
  | store
  | load
  | assignVar
  | assignMember
  | assignIndex
  | not
  | binary (op : BinOp)
  deriving DecidableEq, Repr

namespace Op

def binaryName : BinOp → String
  | .add => "Plus"
  | .sub => "Minus"
  | .mul => "Mul"
  | .div => "Div"
  | .mod => "Mod"
  | .lt => "Lt"
  | .le => "Le"
  | .gt => "Gt"
  | .ge => "Ge"
  | .eq => "Eq"
  | .ne => "Ne"
  | .and => "And"
  | .or => "Or"

def name : Op → String
  | unify => "Unify"
  | aliasOf => "Alias"
  | this => "This"
  | parameter => "Parameter"
  | arg => "Arg"
  | null => "Null"
  | int => "Int"
  | boolean => "Boolean"
  | newObject => "NewObj"
  | newIntArray => "NewIntArray"
  | label => "Label"
  | jump => "Goto"
  | branchIf => "Branch"
  | branchUnless => "NBranch"
  | call => "Call"
  | print => "Print"
  | ret => "Return"
  | member => "Member"
  | index => "Index"
  | store => "Store"
  | load => "Load"
  | assignVar => "VarAssg"
  | assignMember => "MemberAssg"
  | assignIndex => "IndexAssg"
  | not => "Not"
  | binary op => binaryName op

/-- Every operation, in the order of the definition. -/
def all : List Op :=
  [unify, aliasOf, this, parameter, arg, null, int, boolean, newObject, newIntArray, label, jump,
    branchIf, branchUnless, call, print, ret, member, index, store, load, assignVar, assignMember,
    assignIndex, not, binary .add, binary .sub, binary .mul, binary .div, binary .mod, binary .lt,
    binary .le, binary .gt, binary .ge, binary .eq, binary .ne, binary .and, binary .or]

theorem mem_all (op : Op) : op ∈ all := by
  cases op with
  | binary op => cases op <;> decide
  | _ => decide

/-- Whether the operation only ties statements together. -/
def isMerge : Op → Bool
  | unify | aliasOf => true
  | _ => false

def isJump : Op → Bool
  | jump | branchIf | branchUnless => true
  | _ => false

/-- Whether the operation produces a value that needs a place. -/
def definesValue : Op → Bool
  | unify | aliasOf | label | jump | branchIf | branchUnless | print | ret | store | assignMember
  | assignIndex => false
  | _ => true

/-- Whether control may pass from the operation to the next statement. -/
def fallsThrough : Op → Bool
  | jump | ret => false
  | _ => true

theorem definesValue_eq_false_of_isMerge {op : Op} (h : op.isMerge = true) :
    op.definesValue = false := by
  cases op <;> simp_all [isMerge, definesValue]

end Op

/-- What a statement carries besides its operands. -/
inductive Payload where
  | none
  /-- Position of a parameter or an argument. -/
  | position (n : Nat)
  | int (value : Int32)
  | bool (value : Bool)
  /-- Label of a label statement or target of a jump. -/
  | label (name : String)
  /-- Class of a new object, field of a member access, variable of an assignment. -/
  | name (name : String)
  /-- Declared type of a local. -/
  | type (name : TypeName)
  /-- Method of a call and its argument statements in order. -/
  | call (method : String) (args : List StmtId)
  /-- Index operand of an assignment to an array element. -/
  | index (id : StmtId)
  /-- Stack slot of a store or a load. -/
  | slot (n : Nat)
  deriving DecidableEq, Repr

namespace Payload

def text : Payload → String
  | none => ""
  | position n => toString n
  | int value => toString value.toInt
  | bool value => if value then "true" else "false"
  | label l => l
  | name n => n
  | type t => t.text
  | call method args => s!"{method}(" ++ ", ".intercalate (args.map toString) ++ ")"
  | index id => toString id
  | slot n => toString n

end Payload

inductive Pin where
  | register (n : Nat)
  /-- The value lives in memory only, as an argument passed on the stack does. -/
  | noRegister
  deriving DecidableEq, Repr

namespace Pin

def text : Pin → String
  | register n => s!"Register({n})"
  | noRegister => "NoRegister"

def register? : Pin → Option Nat
  | register n => some n
  | noRegister => none

end Pin

structure Statement where
  id : StmtId
  op : Op
  left? : Option StmtId := none
  right? : Option StmtId := none
  payload : Payload := .none
  type? : Option TypeId := none
  register? : Option Nat := none
  pin? : Option Pin := none
  deriving DecidableEq, Repr

namespace Statement

def label? (s : Statement) : Option String :=
  match s.payload with
  | .label name => some name
  | _ => none

def name? (s : Statement) : Option String :=
  match s.payload with
  | .name name => some name
  | _ => none

def position? (s : Statement) : Option Nat :=
  match s.payload with
  | .position n => some n
  | _ => none

/-- The method and the arguments that a statement carries. -/
def call? (s : Statement) : Option (String × List StmtId) :=
  match s.payload with
  | .call method args => some (method, args)
  | _ => none

def slot? (s : Statement) : Option Nat :=
  match s.payload with
  | .slot n => some n
  | _ => none

def index? (s : Statement) : Option StmtId :=
  match s.payload with
  | .index id => some id
  | _ => none

def payloadOperands : Payload → List StmtId
  | .call _ args => args
  | .index id => [id]
  | _ => []

/-- The statements that a statement names, in order. -/
def operands (s : Statement) : List StmtId :=
  s.left?.toList ++ s.right?.toList ++ payloadOperands s.payload

/-- The statements whose values are read when the statement is executed. A merge reads nothing. -/
def uses (s : Statement) : List StmtId := if s.op.isMerge then [] else s.operands

def redirect (old new id : StmtId) : StmtId := if id = old then new else id

/-- Replaces every reference to `old` by one to `new`. -/
def replaceUse (s : Statement) (old new : StmtId) : Statement :=
  { s with
    left? := s.left?.map (redirect old new)
    right? := s.right?.map (redirect old new)
    payload := match s.payload with
      | .call method args => .call method (args.map (redirect old new))
      | .index id => .index (redirect old new id)
      | payload => payload }

end Statement

end MiniJava.Ssa
