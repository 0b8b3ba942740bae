import MiniJava.Ssa.Statement

/-!
# Errors of emission

What can be missing when a statement becomes machine instructions.
-/

namespace MiniJava

open Ssa

inductive EmitFault where
  | valueWithoutRegister
  | resultWithoutRegister
  | missingLeft
  | missingRight
  | missingPosition
  | missingConstant
  | missingClass
  | missingLabel
  | missingCall
  | missingField
  | missingSlot
  | missingIndex
  | unknownClass (name : String)
  | untypedTarget
  | notAClass (name : String)
  | noMethod (owner method : String)
  | noField (owner field : String)
  | noArrayField (field : String)
  deriving DecidableEq, Repr

namespace EmitFault

def message : EmitFault → String
  | valueWithoutRegister => "value has no register"
  | resultWithoutRegister => "result has no register"
  | missingLeft => "missing left operand"
  | missingRight => "missing right operand"
  | missingPosition => "missing position"
  | missingConstant => "missing constant"
  | missingClass => "missing class"
  | missingLabel => "missing label"
  | missingCall => "missing call"
  | missingField => "missing field"
  | missingSlot => "missing slot"
  | missingIndex => "missing index"
  | unknownClass name => s!"unknown class '{name}'"
  | untypedTarget => "target has no type"
  | notAClass name => s!"'{name}' is not a class"
  | noMethod owner method => s!"'{owner}' has no method '{method}'"
  | noField owner field => s!"'{owner}' has no field '{field}'"
  | noArrayField field => s!"int[] has no field '{field}'"

end EmitFault

inductive EmitError where
  | fault (stmt : StmtId) (op : Op) (fault : EmitFault)
  /-- An operand is not in the method. -/
  | notInMethod (id : StmtId)
  /-- A statement carries a type that the program does not have. -/
  | unknownType (type : TypeId)
  deriving DecidableEq, Repr

namespace EmitError

def message : EmitError → String
  | fault stmt op f => s!"statement {stmt} ({op.name}): {f.message}"
  | notInMethod id => s!"statement {id} is not in this method"
  | unknownType type => s!"type {type} is not in the table of types"

end EmitError

end MiniJava
