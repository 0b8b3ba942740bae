import MiniJava.Ast

/-!
# Errors of structure

What can be wrong with the declarations of a program, whatever the types of its expressions.
-/

namespace MiniJava

inductive StructuralErrorKind where
  | duplicateClass
  | duplicateField
  | duplicateMethod
  | duplicateLocal
  | invalidAssignmentTarget
  | unresolvedType
  | cyclicInheritance
  deriving DecidableEq, Repr

namespace StructuralErrorKind

def name : StructuralErrorKind → String
  | duplicateClass => "DuplicateClass"
  | duplicateField => "DuplicateField"
  | duplicateMethod => "DuplicateMethod"
  | duplicateLocal => "DuplicateLocal"
  | invalidAssignmentTarget => "InvalidAssignmentTarget"
  | unresolvedType => "UnresolvedType"
  | cyclicInheritance => "CyclicInheritance"

end StructuralErrorKind

/-- What is wrong with the declarations of a program. -/
inductive StructuralError where
  | duplicateClass (name : String)
  /-- A class has the name of a built-in type. -/
  | builtinClass (name : String)
  | duplicateField (field owner : String)
  | duplicateMethod (method owner : String)
  | duplicateLocal (name : String)
  | invalidAssignmentTarget
  | unresolvedType (type : TypeName)
  /-- The classes whose parents are unknown or lead back to themselves. -/
  | cyclicInheritance (names : List String)
  deriving DecidableEq, Repr

namespace StructuralError

def kind : StructuralError → StructuralErrorKind
  | duplicateClass _ => .duplicateClass
  | builtinClass _ => .duplicateClass
  | duplicateField _ _ => .duplicateField
  | duplicateMethod _ _ => .duplicateMethod
  | duplicateLocal _ => .duplicateLocal
  | invalidAssignmentTarget => .invalidAssignmentTarget
  | unresolvedType _ => .unresolvedType
  | cyclicInheritance _ => .cyclicInheritance

def message : StructuralError → String
  | duplicateClass name => s!"class '{name}' is declared twice"
  | builtinClass name => s!"class '{name}' redefines a built-in type"
  | duplicateField field owner => s!"field '{field}' is declared twice in class '{owner}'"
  | duplicateMethod method owner => s!"method '{method}' is declared twice in class '{owner}'"
  | duplicateLocal name => s!"duplicate local variable '{name}'"
  | invalidAssignmentTarget =>
    "left-hand side of an assignment must be a variable, field or array element"
  | unresolvedType type => s!"'{type.text}' cannot be resolved to a type"
  | cyclicInheritance names =>
    "parent type cannot be resolved or is circular for: " ++ ", ".intercalate names

end StructuralError

end MiniJava
