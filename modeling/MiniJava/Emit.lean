import MiniJava.Assembly
import MiniJava.EmitError
import MiniJava.Frame

/-!
# Assembly of allocated programs

Each statement of an allocated body becomes a few instructions; its value is in the register that it
was given. The receiver stays in `$v0` throughout a method, and `$v1` is free inside the code of a
statement. Around whatever jumps away, the registers that the caller has to preserve are saved.
-/

namespace MiniJava

open Ssa

/-! ## Names -/

def mainLabel : String := "mj_main"

/-- The label of the service that allocates an object. -/
def newLabel : String := "minijavaNew"

/-- The label of the service that allocates an array. -/
def newArrayLabel : String := "minijavaNewArray"

/-- The label of the service that prints a number. -/
def printLabel : String := "minijavaPrint"

def tableLabel (owner : String) : String := s!"mj__v_{owner}"

def methodLabel (owner method : String) : String := s!"mj__m_{owner}_{method}"

namespace Ssa.Method

def label (m : Method) : String :=
  match m.owner? with
  | some owner => methodLabel owner m.name
  | none => mainLabel

end Ssa.Method

def returnLabel (start : String) : String := s!"{start}_ret"

/-! ## Statements -/

/-- What the code of a statement depends on: the program, and the label, frame and body of the method
around it. -/
structure EmitContext where
  program : Program
  label : String
  frame : Frame
  body : Body

def Ssa.Statement.fault {α : Type} (s : Statement) (fault : EmitFault) : Except EmitError α :=
  .error (.fault s.id s.op fault)

def Ssa.Statement.require {α : Type} (s : Statement) (fault : EmitFault) :
    Option α → Except EmitError α
  | some a => .ok a
  | none => s.fault fault

def Ssa.Statement.result? (s : Statement) : Option Register := s.register?.bind Register.ofColor?

def plain (i : Instr) : AsmItem := .instr i none

def noted (i : Instr) (comment : String) : AsmItem := .instr i (some comment)

def moveTo (d s : Register) : List AsmItem := if d = s then [] else [plain (.move d s)]

/-- Puts the address of an array element into the scratch register: the elements follow the length. -/
def elementAddress (base index : Register) : List AsmItem :=
  [plain (.aluImm .mul .scratch index (byteOffset 1)),
    plain (.aluImm .add .scratch .scratch (byteOffset 1)),
    plain (.alu .add .scratch .scratch base)]

/-- Saves the registers that calls may change, except the one that takes the result. -/
def saveCaller (frame : Frame) (keep : Option Register) : List AsmItem :=
  (frame.callerSavedRegisters.zipIdx.filter fun (r, _) => some r ≠ keep).map fun (r, i) =>
    plain (.sw r (frame.callerSaveOffset i) .fp)

/-- Restores the registers that calls may change, except the one that takes the result. -/
def restoreCaller (frame : Frame) (keep : Option Register) : List AsmItem :=
  (frame.callerSavedRegisters.zipIdx.filter fun (r, _) => some r ≠ keep).map fun (r, i) =>
    plain (.lw r (frame.callerSaveOffset i) .fp)

/-- Wraps code that jumps away: registers are saved before, and after it the result is taken and the
registers are restored. -/
def preserving (frame : Frame) (dest : Option Register) (code : List AsmItem) : List AsmItem :=
  let take := match dest with
    | some d => [plain (.move d .result)]
    | none => []
  saveCaller frame dest ++ code ++ take ++ restoreCaller frame dest

def callService (frame : Frame) (service : String) (dest : Option Register) (setup : List Instr) :
    List AsmItem :=
  preserving frame dest (setup.map plain ++ [plain (.jal service)])

namespace EmitContext

def find? (cx : EmitContext) (id : StmtId) : Option Statement := cx.body.last? id

def registerOf (cx : EmitContext) (id : StmtId) : Except EmitError Register :=
  match cx.find? id with
  | none => .error (.notInMethod id)
  | some s => s.require .valueWithoutRegister s.result?

def left (cx : EmitContext) (s : Statement) : Except EmitError Register := do
  cx.registerOf (← s.require .missingLeft s.left?)

def right (cx : EmitContext) (s : Statement) : Except EmitError Register := do
  cx.registerOf (← s.require .missingRight s.right?)

def dest (s : Statement) : Except EmitError Register := s.require .resultWithoutRegister s.result?

def operandType? (cx : EmitContext) (id? : Option StmtId) : Option TypeId := do
  let s ← cx.find? (← id?)
  s.type?

def typeAt (cx : EmitContext) (type : TypeId) : Except EmitError StaticType :=
  match cx.program.types.get? type with
  | some t => .ok t
  | none => .error (.unknownType type)

def targetClass (cx : EmitContext) (s : Statement) : Except EmitError String := do
  let type ← s.require .untypedTarget (cx.operandType? s.left?)
  let name := (← cx.typeAt type).name
  if (cx.program.class? name).isSome then return name else s.fault (.notAClass name)

def fieldOffset (cx : EmitContext) (s : Statement) (field : String) : Except EmitError Int32 := do
  let owner ← cx.targetClass s
  let offset ← s.require (.noField owner field) (cx.program.fieldOffset? owner field)
  return .ofNat offset

/-- The label that a statement carries, made unique by the label of the method. -/
def jumpLabel (cx : EmitContext) (s : Statement) : Except EmitError String := do
  let label ← s.require .missingLabel s.label?
  return s!"{cx.label}_{label}"

/-- Whether the operands have the same representation; those without type count as such. -/
def sameKind (cx : EmitContext) (s : Statement) : Except EmitError Bool :=
  match cx.operandType? s.left?, cx.operandType? s.right? with
  | some l, some r => do
    let l ← cx.typeAt l
    let r ← cx.typeAt r
    return l.kind = r.kind
  | _, _ => .ok true

def alu (cx : EmitContext) (s : Statement) (op : AluOp) : Except EmitError (List AsmItem) := do
  let d ← dest s
  let a ← cx.left s
  let b ← cx.right s
  return [plain (.alu op d a b)]

/-- The code of a conjunction or disjunction: the sum of the operands, compared with a constant. -/
def logic (cx : EmitContext) (s : Statement) (op : AluOp) (imm : Int32) :
    Except EmitError (List AsmItem) := do
  let d ← dest s
  let a ← cx.left s
  let b ← cx.right s
  return [plain (.alu .add d a b), plain (.aluImm op d d imm)]

/-- The code of a division, of which one of the two results is taken. -/
def divide (cx : EmitContext) (s : Statement) (take : Register → Instr) :
    Except EmitError (List AsmItem) := do
  let d ← dest s
  let a ← cx.left s
  let b ← cx.right s
  return [plain (.div a b), plain (take d)]

/-- The code of an equality test. Values of different kinds differ. -/
def equality (cx : EmitContext) (s : Statement) (op : AluOp) (different : Int32) :
    Except EmitError (List AsmItem) := do
  let d ← dest s
  if ← cx.sameKind s then
    let a ← cx.left s
    let b ← cx.right s
    return [plain (.alu op d a b)]
  else
    return [noted (.li d different) "operands of different kinds"]

def binary (cx : EmitContext) (s : Statement) : BinOp → Except EmitError (List AsmItem)
  | .add => cx.alu s .add
  | .sub => cx.alu s .sub
  | .mul => cx.alu s .mul
  | .lt => cx.alu s .slt
  | .le => cx.alu s .sle
  | .gt => cx.alu s .sgt
  | .ge => cx.alu s .sge
  | .and => cx.logic s .seq 2
  | .or => cx.logic s .sne 0
  | .eq => cx.equality s .seq 0
  | .ne => cx.equality s .sne 1
  | .div => cx.divide s .mflo
  | .mod => cx.divide s .mfhi

/-- The code of a call: the receiver's dispatch table gives the method. -/
def call (cx : EmitContext) (s : Statement) : Except EmitError (List AsmItem) := do
  let target ← cx.left s
  let (method, _) ← s.require .missingCall s.call?
  let owner ← cx.targetClass s
  let slot ← s.require (.noMethod owner method) (cx.program.methodSlot? owner method)
  return preserving cx.frame s.result?
    [plain (.move .this target), plain (.lw .scratch 0 .this),
      plain (.lw .scratch (byteOffset slot) .scratch),
      noted (.jalr .scratch) s!"{owner}.{method}"]

/-- The code of a read of a field or of the length of an array. -/
def member (cx : EmitContext) (s : Statement) : Except EmitError (List AsmItem) := do
  let d ← dest s
  let target ← cx.left s
  let field ← s.require .missingField s.name?
  if cx.operandType? s.left? = some .intArray then
    if field = "length" then return [plain (.lw d 0 target)]
    else s.fault (.noArrayField field)
  else
    return [plain (.lw d (← cx.fieldOffset s field) target)]

def stmt (cx : EmitContext) (s : Statement) : Except EmitError (List AsmItem) :=
  match s.op with
  | .unify | .aliasOf => .ok []
  | .this => do
    let d ← dest s
    return [plain (.move d .this)]
  | .parameter => do
    let d ← dest s
    let position ← s.require .missingPosition s.position?
    match Register.arguments[position]? with
    | some incoming => return moveTo d incoming
    | none => return [noted (.lw d (Frame.paramOffset position) .fp) s!"parameter {position}"]
  | .arg => do
    let value ← cx.left s
    let position ← s.require .missingPosition s.position?
    match Register.arguments[position]? with
    | some outgoing => return moveTo outgoing value
    | none => return [noted (.sw value (Frame.argOffset position) .sp) s!"argument {position}"]
  | .null => do
    let d ← dest s
    return [plain (.move d .zero)]
  | .int => do
    let d ← dest s
    match s.payload with
    | .int n => return [plain (.li d n)]
    | _ => s.fault .missingConstant
  | .boolean => do
    let d ← dest s
    match s.payload with
    | .bool b => return [plain (.li d (if b then 1 else 0))]
    | _ => s.fault .missingConstant
  | .newObject => do
    let d ← dest s
    let name ← s.require .missingClass s.name?
    let words ← s.require (.unknownClass name) (cx.program.objectSize? name)
    return callService cx.frame newLabel (some d)
      [.la .a0 (tableLabel name), .li .a1 (byteOffset words)]
  | .newIntArray => do
    let d ← dest s
    let size ← cx.left s
    return callService cx.frame newArrayLabel (some d) [.move .a0 size]
  | .print => do
    let value ← cx.left s
    return callService cx.frame printLabel none [.move .a0 value]
  | .label => do
    let label ← cx.jumpLabel s
    return [.label label]
  | .jump => do
    let label ← cx.jumpLabel s
    return [plain (.j label)]
  | .branchIf => do
    let label ← cx.jumpLabel s
    let condition ← cx.left s
    return [plain (.bne condition .zero label)]
  | .branchUnless => do
    let label ← cx.jumpLabel s
    let condition ← cx.left s
    return [plain (.beq condition .zero label)]
  | .call => cx.call s
  | .ret => do
    let value ← cx.left s
    return [plain (.move .result value), plain (.j (returnLabel cx.label))]
  | .member => cx.member s
  | .index => do
    let d ← dest s
    let base ← cx.left s
    let index ← cx.right s
    return elementAddress base index ++ [plain (.lw d 0 .scratch)]
  | .store => do
    let value ← cx.left s
    let slot ← s.require .missingSlot s.slot?
    return [noted (.sw value (Frame.spillOffset slot) .fp) s!"spill {slot}"]
  | .load => do
    let d ← dest s
    let slot ← s.require .missingSlot s.slot?
    return [noted (.lw d (Frame.spillOffset slot) .fp) s!"reload {slot}"]
  | .assignVar => do
    let d ← dest s
    let value ← cx.left s
    return moveTo d value
  | .assignMember => do
    let target ← cx.left s
    let value ← cx.right s
    let field ← s.require .missingField s.name?
    return [plain (.sw value (← cx.fieldOffset s field) target)]
  | .assignIndex => do
    let base ← cx.left s
    let value ← cx.right s
    let index ← cx.registerOf (← s.require .missingIndex s.index?)
    return elementAddress base index ++ [plain (.sw value 0 .scratch)]
  | .not => do
    let d ← dest s
    let value ← cx.left s
    return [plain (.alu .seq d .zero value)]
  | .binary op => cx.binary s op

end EmitContext

/-! ## Methods -/

def prologue (frame : Frame) : List AsmItem :=
  (Instr.push .fp).map plain
    ++ [plain (.move .fp .sp), plain (.bumpSp (Frame.below frame.words)),
      plain (.sw .ra frame.returnOffset .fp)]
    ++ frame.calleeSavedRegisters.zipIdx.map fun (r, i) =>
      plain (.sw r (frame.calleeSaveOffset i) .fp)

def epilogue (frame : Frame) : List AsmItem :=
  (frame.calleeSavedRegisters.zipIdx.map fun (r, i) =>
      plain (.lw r (frame.calleeSaveOffset i) .fp))
    ++ [plain (.lw .ra frame.returnOffset .fp), plain (.move .sp .fp)]
    ++ (Instr.pop .fp).map plain ++ [plain (.jr .ra)]

def emitMethod (p : Program) (m : Method) : Except EmitError (List AsmItem) := do
  let cx : EmitContext :=
    { program := p, label := m.label, frame := .ofBody m.body, body := m.body }
  let code ← m.body.mapM cx.stmt
  return .label cx.label :: prologue cx.frame ++ code.flatten
    ++ .label (returnLabel cx.label) :: epilogue cx.frame ++ [.blank]

/-! ## Programs -/

/-- The dispatch table of a class. A table without methods holds a zero. -/
def emitTable (p : Program) (c : ClassDef) : List AsmItem :=
  let entries := p.dispatchTable c.name
  let words := if entries.isEmpty then "0"
    else ", ".intercalate (entries.map fun e => methodLabel e.owner e.method)
  [.label (tableLabel c.name), .directive s!".word {words}"]

def emitTables (p : Program) : List AsmItem :=
  [.directive ".data", .directive ".align 2"] ++ p.classes.flatMap (emitTable p) ++ [.blank]

/-- The start of the program and the three services. The object service takes the dispatch table and
the size in bytes, the array service the number of elements, the print service the number. -/
def services : List AsmItem :=
  [.directive ".text", .directive ".globl main",
    .label "main", plain (.jal mainLabel), plain (.li .v0 10), noted .syscall "exit", .blank,
    .label newLabel, plain (.move .v1 .a0), plain (.move .a0 .a1), plain (.li .v0 9),
    noted .syscall "sbrk", plain (.sw .v1 0 .v0), plain (.jr .ra), .blank,
    .label newArrayLabel, plain (.move .v1 .a0), plain (.aluImm .mul .a0 .a0 4),
    plain (.aluImm .add .a0 .a0 4), plain (.li .v0 9), noted .syscall "sbrk",
    plain (.sw .v1 0 .v0), plain (.jr .ra), .blank,
    .label printLabel, plain (.li .v0 1), noted .syscall "print_int", plain (.li .v0 11),
    plain (.li .a0 10), noted .syscall "print_char", plain (.jr .ra), .blank]

def Ssa.Program.emit (p : Program) : Except EmitError Assembly := do
  let methods ← p.methods.mapM (emitMethod p)
  return ⟨emitTables p ++ services ++ methods.flatten⟩

end MiniJava
