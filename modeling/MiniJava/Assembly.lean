import MiniJava.Layout
import MiniJava.Register

/-!
# Assembly

The machine instructions that generated code consists of, and the lines of an assembly text.
Constants and offsets in instructions are machine words.
-/

namespace MiniJava

/-- Operations on two registers, or on a register and a constant. Comparisons give 0 or 1. -/
inductive AluOp where
  | add
  | sub
  | mul
  | slt
  | sle
  | sgt
  | sge
  | seq
  | sne
  deriving DecidableEq, Repr

namespace AluOp

def mnemonic : AluOp → String
  | add => "add"
  | sub => "sub"
  | mul => "mul"
  | slt => "slt"
  | sle => "sle"
  | sgt => "sgt"
  | sge => "sge"
  | seq => "seq"
  | sne => "sne"

def all : List AluOp := [add, sub, mul, slt, sle, sgt, sge, seq, sne]

end AluOp

inductive Instr where
  | alu (op : AluOp) (d a b : Register)
  | aluImm (op : AluOp) (d a : Register) (imm : Int32)
  /-- Divides; the quotient goes to LO and the remainder to HI. -/
  | div (a b : Register)
  | mflo (d : Register)
  | mfhi (d : Register)
  | move (d s : Register)
  | li (d : Register) (imm : Int32)
  | la (d : Register) (label : String)
  | lw (d : Register) (offset : Int32) (base : Register)
  | sw (s : Register) (offset : Int32) (base : Register)
  | beq (a b : Register) (label : String)
  | bne (a b : Register) (label : String)
  | j (label : String)
  | jal (label : String)
  | jalr (r : Register)
  | jr (r : Register)
  | syscall
  deriving DecidableEq, Repr

namespace Instr

/-- A place in memory; an offset of zero is not written. -/
def address (offset : Int32) (base : Register) : String :=
  if offset = 0 then s!"({base.text})" else s!"{offset.toInt}({base.text})"

def text : Instr → String
  | alu op d a b => s!"{op.mnemonic} {d.text}, {a.text}, {b.text}"
  | aluImm op d a imm => s!"{op.mnemonic} {d.text}, {a.text}, {imm.toInt}"
  | div a b => s!"div {a.text}, {b.text}"
  | mflo d => s!"mflo {d.text}"
  | mfhi d => s!"mfhi {d.text}"
  | move d s => s!"move {d.text}, {s.text}"
  | li d imm => s!"li {d.text}, {imm.toInt}"
  | la d label => s!"la {d.text}, {label}"
  | lw d offset base => s!"lw {d.text}, {address offset base}"
  | sw s offset base => s!"sw {s.text}, {address offset base}"
  | beq a b label => s!"beq {a.text}, {b.text}, {label}"
  | bne a b label => s!"bne {a.text}, {b.text}, {label}"
  | j label => s!"j {label}"
  | jal label => s!"jal {label}"
  | jalr r => s!"jalr {r.text}"
  | jr r => s!"jr {r.text}"
  | syscall => "syscall"

def bumpSp (delta : Int32) : Instr := aluImm .add .sp .sp delta

def push (r : Register) : List Instr := [bumpSp (byteOffset (-1)), sw r 0 .sp]

def pop (r : Register) : List Instr := [lw r 0 .sp, bumpSp (byteOffset 1)]

end Instr

inductive AsmItem where
  | label (name : String)
  | instr (instr : Instr) (comment? : Option String)
  | directive (text : String)
  /-- A line with a comment only. -/
  | remark (text : String)
  | blank
  deriving DecidableEq, Repr

namespace AsmItem

def line : AsmItem → String
  | label name => s!"{name}:"
  | instr i none => s!"  {i.text}"
  | instr i (some comment) => s!"  {i.text}  # {comment}"
  | directive text => s!"  {text}"
  | remark text => s!"# {text}"
  | blank => ""

end AsmItem

structure Assembly where
  items : List AsmItem
  deriving DecidableEq, Repr

namespace Assembly

def lines (asm : Assembly) : List String := asm.items.map (·.line)

def text (asm : Assembly) : String := "\n".intercalate asm.lines ++ "\n"

end Assembly

end MiniJava
