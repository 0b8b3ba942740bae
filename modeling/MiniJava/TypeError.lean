import MiniJava.Ssa.Statement

/-!
# Type errors

A type error names the statement whose rule is broken and says how.
-/

namespace MiniJava

inductive TypeErrorKind where
  | unifyMismatch
  | conditionNotBoolean
  | operandNotInt
  | operandNotBoolean
  | notAnObject
  | notAnArray
  | unknownClass
  | unknownField
  | unknownMethod
  | argumentCount
  | argumentType
  | returnType
  | assignmentType
  | thisInMain
  | parameterOutsideMethod
  | untypedOperand
  deriving DecidableEq, Repr

namespace TypeErrorKind

def name : TypeErrorKind → String
  | unifyMismatch => "UnifyMismatch"
  | conditionNotBoolean => "ConditionNotBoolean"
  | operandNotInt => "OperandNotInt"
  | operandNotBoolean => "OperandNotBoolean"
  | notAnObject => "NotAnObject"
  | notAnArray => "NotAnArray"
  | unknownClass => "UnknownClass"
  | unknownField => "UnknownField"
  | unknownMethod => "UnknownMethod"
  | argumentCount => "ArgumentCount"
  | argumentType => "ArgumentType"
  | returnType => "ReturnType"
  | assignmentType => "AssignmentType"
  | thisInMain => "ThisInMain"
  | parameterOutsideMethod => "ParameterOutsideMethod"
  | untypedOperand => "UntypedOperand"

end TypeErrorKind

/-- The places where a value must have one particular type. -/
inductive Use where
  | arraySize
  | condition
  | printed
  | subscripted
  | index
  | element
  | negated
  | leftBoolean
  | rightBoolean
  | leftInt
  | rightInt
  deriving DecidableEq, Repr

namespace Use

def phrase : Use → String
  | arraySize => "array size"
  | condition => "branch condition"
  | printed => "printed value"
  | subscripted => "subscripted value"
  | index => "index"
  | element => "array element"
  | negated => "operand of !"
  | leftBoolean | leftInt => "left operand"
  | rightBoolean | rightInt => "right operand"

def type : Use → TypeId
  | arraySize | printed | index | element | leftInt | rightInt => .int
  | condition | negated | leftBoolean | rightBoolean => .boolean
  | subscripted => .intArray

/-- The kind of error if the value has another type. -/
def kind : Use → TypeErrorKind
  | arraySize | printed | index | leftInt | rightInt => .operandNotInt
  | condition => .conditionNotBoolean
  | subscripted => .notAnArray
  | element => .assignmentType
  | negated | leftBoolean | rightBoolean => .operandNotBoolean

end Use

/-- How a typing rule is broken. Types appear by their names. -/
inductive TypeFault where
  | unifyMismatch (left right : String)
  /-- A value has another type than its use demands. -/
  | wrongType (use : Use) (actual : String)
  | notAnObject (type : String)
  | nullWithoutType
  | unknownClass (name : String)
  | unknownField (field type : String)
  | callWithoutMethod
  | unknownMethod (method type : String)
  | argumentCount (method : String) (expected given : Nat)
  | argumentType (position : Nat) (method actual expected : String)
  | returnType (actual declared : String)
  | assignVariable (value name type : String)
  | assignField (value type : String)
  | thisInMain
  | noParameter (position : Nat)
  | missingOperand
  | missingIndex
  | undefinedOperand (id : Ssa.StmtId)
  /-- A reload stands in code that has no stack slots yet. -/
  | reload
  deriving DecidableEq, Repr

namespace TypeFault

def kind : TypeFault → TypeErrorKind
  | unifyMismatch _ _ => .unifyMismatch
  | wrongType use _ => use.kind
  | notAnObject _ => .notAnObject
  | nullWithoutType => .unknownClass
  | unknownClass _ => .unknownClass
  | unknownField _ _ => .unknownField
  | callWithoutMethod => .unknownMethod
  | unknownMethod _ _ => .unknownMethod
  | argumentCount _ _ _ => .argumentCount
  | argumentType _ _ _ _ => .argumentType
  | returnType _ _ => .returnType
  | assignVariable _ _ _ => .assignmentType
  | assignField _ _ => .assignmentType
  | thisInMain => .thisInMain
  | noParameter _ => .parameterOutsideMethod
  | missingOperand => .untypedOperand
  | missingIndex => .untypedOperand
  | undefinedOperand _ => .untypedOperand
  | reload => .untypedOperand

def message : TypeFault → String
  | unifyMismatch l r => s!"cannot unify statements of different types ({l} and {r})"
  | wrongType use actual =>
    s!"{use.phrase} must be {TypeTable.builtin.name use.type}, found {actual}"
  | notAnObject type => s!"target of type {type} is not an object"
  | nullWithoutType => "null without a declared type"
  | unknownClass name => s!"type {name} could not be resolved to a defined class"
  | unknownField field type => s!"field {field} could not be resolved on {type}"
  | callWithoutMethod => "call without a descriptor"
  | unknownMethod method type => s!"method {method} could not be resolved on {type}"
  | argumentCount method expected given =>
    s!"method {method} takes {expected} argument(s), {given} given"
  | argumentType position method actual expected =>
    s!"argument {position} of method {method} has type {actual}, expected {expected}"
  | returnType actual declared =>
    s!"returned {actual} is not compatible with declared return type {declared}"
  | assignVariable value var type => s!"cannot assign {value} to variable {var} of type {type}"
  | assignField value type => s!"cannot assign {value} to field of type {type}"
  | thisInMain => "cannot reference 'this' within main()"
  | noParameter position => s!"no parameter at position {position}"
  | missingOperand => "missing operand"
  | missingIndex => "missing index"
  | undefinedOperand id => s!"operand {id} is used before it is defined"
  | reload => "reload found before register allocation"

end TypeFault

/-- A fault and the statement whose rule is broken. -/
structure TypeError where
  stmt : Ssa.StmtId
  fault : TypeFault
  deriving DecidableEq, Repr

end MiniJava
