import MiniJava.Register
import MiniJava.Ssa.Program

/-!
# The calling convention

The first four arguments of a call travel in the argument registers and the others on the stack. The
statements for parameters and arguments are pinned accordingly before registers are allocated. What
has to be saved around calls follows from the number of colors a method touches.
-/

namespace MiniJava

namespace CallingConvention

/-- How many registers the caller saves, if a method touches the colors below `used`: the two value
registers always, then the argument and temporary registers in the order of their colors. Colors from
12 to 19 belong to the callee. -/
def callerSavedCount (used : Nat) : Nat :=
  if used ≤ 12 then 2 + used
  else if used ≤ 20 then 14
  else 14 + (used - 20)

/-- How many registers the callee saves, if a method touches the colors below `used`. -/
def calleeSavedCount (used : Nat) : Nat := min (used - 12) Register.calleeSaved.length

end CallingConvention

namespace Ssa

/-- Fixes the place of a parameter or an argument: a position below four is its register, and an
argument after that lives on the stack only. A later parameter is loaded like any other value. -/
def Statement.pin (s : Statement) : Statement :=
  match s.op, s.position? with
  | .parameter, some position =>
    if position < Register.arguments.length then
      { s with pin? := some (.register position), register? := some position }
    else s
  | .arg, some position =>
    if position < Register.arguments.length then
      { s with pin? := some (.register position), register? := some position }
    else { s with pin? := some .noRegister, register? := none }
  | _, _ => s

/-- Pins the parameters and arguments of a method. -/
def Method.pinCallingConvention (m : Method) : Method :=
  { m with body := m.body.map (·.pin) }

end Ssa

end MiniJava
