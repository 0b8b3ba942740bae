import MiniJava.Ast

/-!
# Values, heap and effects

What a running method works on: values, a heap of objects and arrays, and the integers printed so far.
The operations here are shared by the evaluation of syntax trees and by the execution of linear code,
so that a comparison of the two is about which operations run, in which order and on which values.
-/

namespace MiniJava

inductive Value where
  | int (n : Int32)
  | bool (b : Bool)
  | ref (address : Nat)
  | null
  deriving DecidableEq

def Value.initial : TypeName → Value
  | .int => .int 0
  | .boolean => .bool false
  | .intArray | .named _ => .null

inductive HeapCell where
  | object (className : String) (fields : List (String × Value))
  | array (items : List Int32)
  deriving DecidableEq

structure World where
  heap : List HeapCell := []
  output : List Int32 := []
  deriving DecidableEq

inductive Fault where
  /-- An operation is applied to a value of another kind. -/
  | wrongKind
  | nullReference
  | divisionByZero
  | negativeSize
  | indexOutOfRange
  /-- There is no such class, field, method or label. -/
  | unknownName
  /-- The receiver is used where there is none. -/
  | noReceiver
  | missingArgument
  /-- A place is read that nothing was written to. -/
  | unwritten
  /-- A statement lacks what its operation needs. -/
  | malformed
  deriving DecidableEq

inductive Stop where
  | fault (f : Fault)
  /-- The run was cut short. -/
  | unfinished
  deriving DecidableEq

/-- A computation that changes the world. If it stops, the world is as it was at that moment. -/
abbrev Effect := EStateM Stop World

def fault {α : Type} (f : Fault) : Effect α := throw (.fault f)

/-- What a method relies on from outside: the objects that `new` makes and the effects of calls. -/
structure Runtime where
  construct : String → Option HeapCell
  call : (className method : String) → (receiver : Value) → (args : List Value) → Effect Value

/-- The surroundings in which a method runs. The entry point of a program has no receiver. -/
structure Activation where
  runtime : Runtime
  receiver? : Option Value
  args : List Value

namespace Activation

def receiver (act : Activation) : Effect Value :=
  match act.receiver? with
  | some v => pure v
  | none => fault .noReceiver

end Activation

/-! ## Operators -/

namespace Value

def toInt : Value → Effect Int32
  | .int n => pure n
  | _ => fault .wrongKind

def toBool : Value → Effect Bool
  | .bool b => pure b
  | _ => fault .wrongKind

def negate (v : Value) : Effect Value := do return .bool (!(← v.toBool))

end Value

namespace BinOp

def onInts (f : Int32 → Int32 → Effect Value) (a b : Value) : Effect Value := do
  let m ← a.toInt
  let n ← b.toInt
  f m n

def onBools (f : Bool → Bool → Bool) (a b : Value) : Effect Value := do
  let p ← a.toBool
  let q ← b.toBool
  return .bool (f p q)

def arithmetic (f : Int32 → Int32 → Int32) : Value → Value → Effect Value :=
  onInts fun m n => pure (.int (f m n))

def division (f : Int32 → Int32 → Int32) : Value → Value → Effect Value :=
  onInts fun m n => if n = 0 then fault .divisionByZero else pure (.int (f m n))

def comparison (f : Int32 → Int32 → Bool) : Value → Value → Effect Value :=
  onInts fun m n => pure (.bool (f m n))

/-- The value of a binary operation. Values of different kinds are different, and references are
equal if they are the same address. -/
def apply : BinOp → Value → Value → Effect Value
  | .add => arithmetic (· + ·)
  | .sub => arithmetic (· - ·)
  | .mul => arithmetic (· * ·)
  | .div => division (· / ·)
  | .mod => division (· % ·)
  | .lt => comparison (· < ·)
  | .le => comparison (· ≤ ·)
  | .gt => comparison (· > ·)
  | .ge => comparison (· ≥ ·)
  | .eq => fun a b => pure (.bool (a = b))
  | .ne => fun a b => pure (.bool (a ≠ b))
  | .and => onBools (· && ·)
  | .or => onBools (· || ·)

end BinOp

/-! ## The heap -/

def deref : Value → Effect (Nat × HeapCell)
  | .ref address => do
    match (← get).heap[address]? with
    | some cell => return (address, cell)
    | none => fault .wrongKind
  | .null => fault .nullReference
  | _ => fault .wrongKind

def allocate (cell : HeapCell) : Effect Value :=
  modifyGet fun w => (.ref w.heap.length, { w with heap := w.heap ++ [cell] })

def overwrite (address : Nat) (cell : HeapCell) : Effect Unit :=
  modify fun w => { w with heap := w.heap.set address cell }

def newObject (rt : Runtime) (className : String) : Effect Value :=
  match rt.construct className with
  | some cell => allocate cell
  | none => fault .unknownName

def newArray (size : Value) : Effect Value := do
  let n ← size.toInt
  if n < 0 then fault .negativeSize
  else allocate (.array (List.replicate n.toInt.toNat 0))

def readMember (target : Value) (name : String) : Effect Value := do
  match ← deref target with
  | (_, .object _ fields) =>
    match fields.lookup name with
    | some v => return v
    | none => fault .unknownName
  | (_, .array items) =>
    if name = "length" then return .int (.ofNat items.length) else fault .unknownName

def setField (name : String) (v : Value) (fields : List (String × Value)) : List (String × Value) :=
  (name, v) :: fields.filter (·.1 != name)

def writeMember (target v : Value) (name : String) : Effect Unit := do
  match ← deref target with
  | (address, .object className fields) =>
    overwrite address (.object className (setField name v fields))
  | (_, .array _) => fault .unknownName

/-- The position in an array that an index denotes. A negative index is out of range. -/
def position? (items : List Int32) (i : Int32) : Option Nat :=
  if 0 ≤ i ∧ i.toInt.toNat < items.length then some i.toInt.toNat else none

def readIndex (target index : Value) : Effect Value := do
  let (_, cell) ← deref target
  let i ← index.toInt
  match cell with
  | .array items =>
    match (position? items i).bind (items[·]?) with
    | some n => return .int n
    | none => fault .indexOutOfRange
  | .object _ _ => fault .wrongKind

def writeIndex (target v index : Value) : Effect Unit := do
  let (address, cell) ← deref target
  let n ← v.toInt
  let i ← index.toInt
  match cell with
  | .array items =>
    match position? items i with
    | some p => overwrite address (.array (items.set p n))
    | none => fault .indexOutOfRange
  | .object _ _ => fault .wrongKind

/-! ## Printing and calls -/

def printInt (v : Value) : Effect Unit := do
  let n ← v.toInt
  modify fun w => { w with output := w.output ++ [n] }

def send (rt : Runtime) (receiver : Value) (method : String) (args : List Value) : Effect Value := do
  match ← deref receiver with
  | (_, .object className _) => rt.call className method receiver args
  | (_, .array _) => fault .wrongKind

end MiniJava
