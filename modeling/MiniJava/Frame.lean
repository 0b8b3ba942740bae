import MiniJava.CallingConvention
import MiniJava.Layout

/-!
# Stack frames

The frame of a method lies below the saved frame pointer. From the top down it holds the spill slots,
the registers that the method saves around its calls, the registers that it saves for its caller, the
return address and the arguments of its calls that do not fit into registers. The last ones are, for
the called method, just above its own saved frame pointer.
-/

namespace MiniJava

open Ssa

/-- The sizes of the areas of a frame, in words. -/
structure Frame where
  spillSlots : Nat
  /-- How many of `Register.callerSaved` are saved around calls. -/
  callerSaved : Nat
  /-- How many of `Register.calleeSaved` are saved at the start. -/
  calleeSaved : Nat
  outgoing : Nat
  deriving DecidableEq, Repr

namespace Frame

/-- The words that the arguments of calls take on the stack, given the highest argument position. -/
def outgoingWords (body : Body) : Nat :=
  let positions := body.filterMap fun s => if s.op = .arg then s.position? else none
  positions.foldl (fun n position => max n (position + 1 - Register.arguments.length)) 0

def ofBody (body : Body) : Frame :=
  let used := body.registersUsed
  { spillSlots := body.nextFreeSlot
    callerSaved := min (CallingConvention.callerSavedCount used) Register.callerSaved.length
    calleeSaved := CallingConvention.calleeSavedCount used
    outgoing := outgoingWords body }

/-- The words of a frame below the saved frame pointer. -/
def words (f : Frame) : Nat := f.spillSlots + f.callerSaved + f.calleeSaved + 1 + f.outgoing

/-- The offset of the `n`-th word below the frame pointer. -/
def below (n : Nat) : Int32 := byteOffset (-(n : Int))

def spillOffset (slot : Nat) : Int32 := below (slot + 1)

/-- The offset of the `index`-th register saved around calls. -/
def callerSaveOffset (f : Frame) (index : Nat) : Int32 := below (f.spillSlots + 1 + index)

/-- The offset of the `index`-th register saved at the start. -/
def calleeSaveOffset (f : Frame) (index : Nat) : Int32 :=
  below (f.spillSlots + f.callerSaved + 1 + index)

def returnOffset (f : Frame) : Int32 := below (f.spillSlots + f.callerSaved + f.calleeSaved + 1)

def paramOffset (position : Nat) : Int32 := byteOffset ((position : Int) - 3)

/-- The offset of an outgoing argument from the stack pointer. -/
def argOffset (position : Nat) : Int32 := byteOffset ((position : Int) - 4)

def callerSavedRegisters (f : Frame) : List Register := Register.callerSaved.take f.callerSaved

def calleeSavedRegisters (f : Frame) : List Register := Register.calleeSaved.take f.calleeSaved

end Frame

end MiniJava
