import MiniJava.Hierarchy
import MiniJava.Ssa.Sweep
import MiniJava.TypeError

/-!
# Type checking

The class hierarchy is resolved first, then the declared types of fields and methods. After that each
body is walked in order, and each statement gets a type from the types of its operands, which stand
before it. The first broken rule ends the check. The types of the statements before it stay in place,
but the table of types is stored only if the whole program is well typed.
-/

namespace MiniJava

open Ssa

inductive CheckError where
  | structural (e : StructuralError)
  | type (e : TypeError)
  deriving DecidableEq, Repr

/-! ## Declared types -/

namespace Ssa

def Field.resolve (types : TypeTable) (f : Field) : Except StructuralError Field := do
  return { f with type? := some (← types.resolve f.decl) }

/-- Resolves the declared types of a method. A method that declares no result returns nothing. -/
def Method.resolve (types : TypeTable) (m : Method) : Except StructuralError Method := do
  let paramTypes ← m.params.mapM fun p => types.resolve p.type
  let returnType ← match m.returnDecl? with
    | some decl => types.resolve decl
    | none => pure .void
  return { m with paramTypes, returnType? := some returnType }

def ClassDef.resolve (types : TypeTable) (c : ClassDef) : Except StructuralError ClassDef := do
  let fields ← c.fields.mapM (·.resolve types)
  let methods ← c.methods.mapM (·.resolve types)
  return { c with fields, methods }

end Ssa

/-! ## Rules -/

/-- The types of a program and its classes with resolved declarations. -/
structure TypeContext where
  types : TypeTable
  classes : List ClassDef

/-- What the rules know about the method around a statement. -/
structure MethodContext where
  /-- The class of `this`; the entry point has none. -/
  this? : Option TypeId
  params : List TypeId
  /-- The declared type of the result; the entry point has none. -/
  returnType? : Option TypeId

/-- The types of the statements so far, newest first. -/
abbrev TypedStmts := List (StmtId × TypeId)

namespace TypedStmts

/-- The type of an operand, which must be there and be typed already. -/
def operand (typed : TypedStmts) : Option StmtId → Except TypeFault TypeId
  | none => .error .missingOperand
  | some id =>
    match typed.lookup id with
    | some type => .ok type
    | none => .error (.undefinedOperand id)

end TypedStmts

namespace TypeContext

/-- The class of a type; the last one declared under its name. -/
def classOf? (cx : TypeContext) (type : TypeId) : Option ClassDef :=
  cx.classes.reverse.find? (·.name == cx.types.name type)

/-- The type of a field, looked up from a type upwards. -/
def fieldType? (cx : TypeContext) (target : TypeId) (field : String) : Option TypeId :=
  (cx.types.ancestors target).findSome? fun type => do
    let c ← cx.classOf? type
    let f ← c.fields.reverse.find? (·.name == field)
    f.type?

def method? (cx : TypeContext) (target : TypeId) (method : String) : Option Method :=
  (cx.types.ancestors target).findSome? fun type => do
    let c ← cx.classOf? type
    c.methods.reverse.find? (·.name == method)

def expect (cx : TypeContext) (use : Use) (actual : TypeId) : Except TypeFault Unit :=
  if actual = use.type then .ok () else .error (.wrongType use (cx.types.name actual))

def expectObject (cx : TypeContext) (target : TypeId) : Except TypeFault Unit :=
  if cx.types.isObject target then .ok () else .error (.notAnObject (cx.types.name target))

def fieldType (cx : TypeContext) (target : TypeId) (field : String) : Except TypeFault TypeId := do
  cx.expectObject target
  match cx.fieldType? target field with
  | some type => .ok type
  | none => .error (.unknownField field (cx.types.name target))

/-- Demands that the arguments of a call have subtypes of the parameters, counting from a position. -/
def checkArgs (cx : TypeContext) (typed : TypedStmts) (method : String) :
    Nat → List (StmtId × TypeId) → Except TypeFault Unit
  | _, [] => .ok ()
  | position, (arg, param) :: rest => do
    let type ← typed.operand (some arg)
    if cx.types.isSubtype type param then
      cx.checkArgs typed method (position + 1) rest
    else
      .error (.argumentType position method (cx.types.name type) (cx.types.name param))

def callRule (cx : TypeContext) (typed : TypedStmts) (s : Statement) : Except TypeFault TypeId := do
  let target ← typed.operand s.left?
  cx.expectObject target
  match s.call? with
  | none => .error .callWithoutMethod
  | some (name, args) =>
    match cx.method? target name with
    | none => .error (.unknownMethod name (cx.types.name target))
    | some m =>
      if args.length = m.paramTypes.length then do
        cx.checkArgs typed name 0 (args.zip m.paramTypes)
        return m.returnType?.getD .void
      else
        .error (.argumentCount name m.paramTypes.length args.length)

/-- The position reported of a parameter that carries none: the highest there can be. -/
def noPosition : Nat := 18446744073709551615

/-- The type of a binary operation. Equality compares any two values. -/
def binaryRule (cx : TypeContext) (typed : TypedStmts) (s : Statement) :
    BinOp → Except TypeFault TypeId
  | .and | .or => do
    cx.expect .leftBoolean (← typed.operand s.left?)
    cx.expect .rightBoolean (← typed.operand s.right?)
    return .boolean
  | .lt | .le | .gt | .ge => do
    cx.expect .leftInt (← typed.operand s.left?)
    cx.expect .rightInt (← typed.operand s.right?)
    return .boolean
  | .add | .sub | .mul | .div | .mod => do
    cx.expect .leftInt (← typed.operand s.left?)
    cx.expect .rightInt (← typed.operand s.right?)
    return .int
  | .eq | .ne => do
    let _ ← typed.operand s.left?
    let _ ← typed.operand s.right?
    return .boolean

/-- The type of a statement, given the types of the statements before it. The type of a local comes
from its previous value, which leads back to a parameter or a declaration. A declaration has the type
it declares, so no rule gives it one. -/
def rule (cx : TypeContext) (mx : MethodContext) (typed : TypedStmts) (s : Statement) :
    Except TypeFault TypeId :=
  let left := typed.operand s.left?
  let right := typed.operand s.right?
  match s.op with
  | .unify => do
    let l ← left
    let r ← right
    if l = r then return l
    else throw (.unifyMismatch (cx.types.name l) (cx.types.name r))
  | .aliasOf | .arg | .store => left
  | .this =>
    match mx.this? with
    | some type => .ok type
    | none => .error .thisInMain
  | .parameter =>
    let position := s.position?.getD noPosition
    match mx.params[position]? with
    | some type => .ok type
    | none => .error (.noParameter position)
  | .null => .error .nullWithoutType
  | .int => .ok .int
  | .boolean => .ok .boolean
  | .newObject =>
    let name := s.name?.getD ""
    match cx.types.lookup? name with
    | some type => if cx.classes.any (·.name == name) then .ok type else .error (.unknownClass name)
    | none => .error (.unknownClass name)
  | .newIntArray => do
    cx.expect .arraySize (← left)
    return .intArray
  | .label | .jump => .ok .void
  | .branchIf | .branchUnless => do
    cx.expect .condition (← left)
    return .void
  | .call => cx.callRule typed s
  | .print => do
    cx.expect .printed (← left)
    return .void
  | .ret => do
    let value ← left
    let declared := mx.returnType?.getD .void
    if cx.types.isSubtype value declared then return .void
    else throw (.returnType (cx.types.name value) (cx.types.name declared))
  | .member => do
    let target ← left
    let member := s.name?.getD ""
    if target = .intArray ∧ member = "length" then return .int
    else cx.fieldType target member
  | .index => do
    cx.expect .subscripted (← left)
    cx.expect .index (← right)
    return .int
  | .load => .error .reload
  | .assignVar => do
    let var ← right
    let value ← left
    if cx.types.isSubtype value var then return var
    else throw (.assignVariable (cx.types.name value) (s.name?.getD "") (cx.types.name var))
  | .assignMember => do
    let field ← cx.fieldType (← left) (s.name?.getD "")
    let value ← right
    if cx.types.isSubtype value field then return field
    else throw (.assignField (cx.types.name value) (cx.types.name field))
  | .assignIndex => do
    cx.expect .subscripted (← left)
    cx.expect .element (← right)
    match s.index? with
    | some index =>
      cx.expect .index (← typed.operand (some index))
      return .int
    | none => throw .missingIndex
  | .not => do
    cx.expect .negated (← left)
    return .boolean
  | .binary op => cx.binaryRule typed s op

/-- The type of a statement, or what the check reports at it. The declared type of a local resolves
like that of a field. -/
def typeOf (cx : TypeContext) (mx : MethodContext) (typed : TypedStmts) (s : Statement) :
    Except CheckError TypeId :=
  match s.op, s.payload with
  | .null, .type decl => (cx.types.resolve decl).mapError .structural
  | _, _ => (cx.rule mx typed s).mapError fun fault => .type ⟨s.id, fault⟩

/-- The statement with its type. A typed assignment to a local no longer needs the previous value. -/
def annotate (s : Statement) (type : TypeId) : Statement :=
  { s with
    right? := if s.op = .assignVar then none else s.right?
    type? := some type }

def checkStmt (cx : TypeContext) (mx : MethodContext) (typed : TypedStmts) (s : Statement) :
    Statement × Except CheckError TypedStmts :=
  match cx.typeOf mx typed s with
  | .ok type => (annotate s type, .ok ((s.id, type) :: typed))
  | .error e => (s, .error e)

def checkMethod (cx : TypeContext) (m : Method) : Method × Except CheckError Unit :=
  let mx : MethodContext :=
    { this? := m.owner?.bind cx.types.lookup?, params := m.paramTypes, returnType? := m.returnType? }
  let (body, result) := sweep (cx.checkStmt mx) [] m.body
  ({ m with body }, result.map fun _ => ())

end TypeContext

/-! ## Programs -/

namespace Ssa.Program

/-- The types of a program and its classes with resolved declarations. -/
def typeContext (p : Program) : Except StructuralError TypeContext := do
  let types ← TypeTable.ofClasses p.classes
  let classes ← p.classes.mapM (·.resolve types)
  return { types, classes }

/-- Checks a program and returns it with the types found, up to the first error. -/
def check (p : Program) : Program × Except CheckError Unit :=
  match p.typeContext with
  | .error e => (p, .error (.structural e))
  | .ok cx =>
    match { p with classes := cx.classes }.sweep (fun _ => cx.checkMethod) () with
    | (p, .ok _) => ({ p with types := cx.types }, .ok ())
    | (p, .error e) => (p, .error e)

end Ssa.Program

end MiniJava
