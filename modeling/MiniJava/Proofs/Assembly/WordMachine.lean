import MiniJava.Emit

/-!
# A machine for straight-line code

The machine that generated code runs on: registers and memory words of 32 bits, arithmetic that wraps
around, and signed comparisons. Memory is a map from byte addresses to words. It has words at some
addresses only, and an access anywhere else traps, as does a division by zero. Jumps, calls and services
have no meaning here.
-/

namespace MiniJava

def truthWord (b : Bool) : Int32 := if b then 1 else 0

def AluOp.apply : AluOp → Int32 → Int32 → Int32
  | add, a, b => a + b
  | sub, a, b => a - b
  | mul, a, b => a * b
  | slt, a, b => truthWord (a < b)
  | sle, a, b => truthWord (a ≤ b)
  | sgt, a, b => truthWord (a > b)
  | sge, a, b => truthWord (a ≥ b)
  | seq, a, b => truthWord (a = b)
  | sne, a, b => truthWord (a ≠ b)

structure MachineState where
  registers : Register → Int32
  hi : Int32
  lo : Int32
  /-- The words of memory by their addresses. -/
  memory : Int32 → Option Int32
  /-- Where the labels of the code and its data are. -/
  labels : String → Int32

namespace MachineState

def read (m : MachineState) (r : Register) : Int32 := if r = .zero then 0 else m.registers r

def write (m : MachineState) (r : Register) (w : Int32) : MachineState :=
  { m with registers := fun x => if x = r then w else m.registers x }

def store? (m : MachineState) (address w : Int32) : Option MachineState :=
  (m.memory address).map fun _ =>
    { m with memory := fun x => if x = address then some w else m.memory x }

end MachineState

/-- Executes an instruction, unless it traps or is none of straight-line code. -/
def Instr.exec? (m : MachineState) : Instr → Option MachineState
  | .alu op d a b => some (m.write d (op.apply (m.read a) (m.read b)))
  | .aluImm op d a imm => some (m.write d (op.apply (m.read a) imm))
  | .div a b =>
    if m.read b = 0 then none
    else some { m with lo := m.read a / m.read b, hi := m.read a % m.read b }
  | .mflo d => some (m.write d m.lo)
  | .mfhi d => some (m.write d m.hi)
  | .move d s => some (m.write d (m.read s))
  | .li d imm => some (m.write d imm)
  | .la d label => some (m.write d (m.labels label))
  | .lw d offset base => (m.memory (m.read base + offset)).map (m.write d)
  | .sw s offset base => m.store? (m.read base + offset) (m.read s)
  | .beq .. | .bne .. | .j _ | .jal _ | .jalr _ | .jr _ | .syscall => none

namespace MachineState

/-- Runs a piece of straight-line code. Only its instructions do anything. -/
def run? : List AsmItem → MachineState → Option MachineState
  | [], m => some m
  | .instr i _ :: code, m => (i.exec? m).bind (run? code)
  | _ :: code, m => run? code m

variable {m m' : MachineState} {d r : Register} {v w : Int32}

@[simp] theorem run?_nil : run? [] m = some m := rfl

@[simp] theorem run?_plain (i : Instr) (code : List AsmItem) :
    run? (plain i :: code) m = (i.exec? m).bind (run? code) := rfl

theorem run?_single (i : Instr) (note? : Option String) : run? [.instr i note?] m = i.exec? m :=
  Option.bind_fun_some _

@[simp] theorem read_zero : m.read .zero = 0 := rfl

theorem read_write_self (hd : d ≠ .zero) : (m.write d w).read d = w := by
  rw [read, if_neg hd]
  exact if_pos rfl

theorem read_write_of_ne (h : r ≠ d) : (m.write d w).read r = m.read r := by
  rw [read, read]
  split
  · rfl
  · exact if_neg h

@[simp] theorem memory_write : (m.write d w).memory = m.memory := rfl

@[simp] theorem write_write : (m.write d v).write d w = m.write d w := by
  rw [write, write, write]
  congr 1
  funext x
  dsimp only
  split <;> rfl

/-! ## States that are alike -/

/-- States that differ at most in what the code of one statement may use freely. -/
structure Alike (m m' : MachineState) : Prop where
  read : ∀ r, r ≠ .scratch → m'.read r = m.read r
  memory : m'.memory = m.memory
  labels : m'.labels = m.labels

namespace Alike

theorem refl (m : MachineState) : Alike m m := ⟨fun _ _ => rfl, rfl, rfl⟩

theorem scratch (h : Alike m m') (w : Int32) : Alike m (m'.write .scratch w) :=
  ⟨fun r hr => (read_write_of_ne hr).trans (h.read r hr), h.memory, h.labels⟩

theorem write (h : Alike m m') (hd : d ≠ .zero) (w : Int32) : Alike (m.write d w) (m'.write d w) := by
  refine ⟨fun r hr => ?_, h.memory, h.labels⟩
  by_cases hrd : r = d
  · rw [hrd, read_write_self hd, read_write_self hd]
  · rw [read_write_of_ne hrd, read_write_of_ne hrd, h.read r hr]

theorem store? (h : Alike m m') (address w : Int32) :
    Option.Rel Alike (m.store? address w) (m'.store? address w) := by
  rw [MachineState.store?, MachineState.store?, h.memory]
  cases m.memory address with
  | none => exact .none
  | some _ => exact .some ⟨h.read, rfl, h.labels⟩

theorem load? (h : Alike m m') (hd : d ≠ .zero) (address : Int32) :
    Option.Rel Alike ((m.memory address).map (m.write d)) ((m'.memory address).map (m'.write d)) := by
  rw [h.memory]
  cases m.memory address with
  | none => exact .none
  | some w => exact .some (h.write hd w)

end Alike

end MachineState

end MiniJava
