/-!
# The register file

The registers of the machine, those that the allocator hands out, and those that calls preserve. The
allocator works with colors; color `c` stands for the `c`-th allocatable register.
-/

namespace MiniJava

inductive Register where
  | zero
  | v0 | v1
  | a0 | a1 | a2 | a3
  | t0 | t1 | t2 | t3 | t4 | t5 | t6 | t7
  | s0 | s1 | s2 | s3 | s4 | s5 | s6 | s7
  | t8 | t9
  | sp | fp | ra
  deriving DecidableEq, Repr

namespace Register

def text : Register → String
  | zero => "$zero"
  | v0 => "$v0" | v1 => "$v1"
  | a0 => "$a0" | a1 => "$a1" | a2 => "$a2" | a3 => "$a3"
  | t0 => "$t0" | t1 => "$t1" | t2 => "$t2" | t3 => "$t3"
  | t4 => "$t4" | t5 => "$t5" | t6 => "$t6" | t7 => "$t7"
  | s0 => "$s0" | s1 => "$s1" | s2 => "$s2" | s3 => "$s3"
  | s4 => "$s4" | s5 => "$s5" | s6 => "$s6" | s7 => "$s7"
  | t8 => "$t8" | t9 => "$t9"
  | sp => "$sp" | fp => "$fp" | ra => "$ra"

def all : List Register :=
  [zero, v0, v1, a0, a1, a2, a3, t0, t1, t2, t3, t4, t5, t6, t7, s0, s1, s2, s3, s4, s5, s6, s7, t8,
    t9, sp, fp, ra]

theorem mem_all (r : Register) : r ∈ all := by cases r <;> decide

/-- The registers that the allocator hands out, by color. The argument registers come first. -/
def allocatable : List Register :=
  [a0, a1, a2, a3, t0, t1, t2, t3, t4, t5, t6, t7, s0, s1, s2, s3, s4, s5, s6, s7, t8, t9]

def arguments : List Register := [a0, a1, a2, a3]

/-- The registers that a caller saves, in the order in which it does. -/
def callerSaved : List Register :=
  [v0, v1, a0, a1, a2, a3, t0, t1, t2, t3, t4, t5, t6, t7, t8, t9]

def calleeSaved : List Register := [s0, s1, s2, s3, s4, s5, s6, s7]

def this : Register := v0

def result : Register := v0

/-- Free for use inside the code of one statement. -/
def scratch : Register := v1

def ofColor? (color : Nat) : Option Register := allocatable[color]?

theorem ofColor?_eq_arguments {position : Nat} (h : position < arguments.length) :
    ofColor? position = arguments[position]? := by
  have h : position < 4 := h
  match position, h with
  | 0, _ | 1, _ | 2, _ | 3, _ => rfl

end Register

end MiniJava
