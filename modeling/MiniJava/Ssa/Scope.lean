import MiniJava.Ssa.Bindings
import MiniJava.Ssa.Program
import MiniJava.StructuralError

/-!
# The state of a method under construction

While a method is lowered, a scope holds the statements emitted so far and the statement that
currently holds the value of each local. Inside a branch or a loop a *shadow level* is open: it
remembers, for each local that the level rebinds, the value from before the level. When the level is
closed, these values tell which locals have to be merged.
-/

namespace MiniJava.Ssa

structure Scope where
  /-- The next free statement number; it keeps counting from method to method. -/
  nextId : StmtId := 0
  /-- The statements so far. -/
  body : Body := []
  /-- The current value of each local and parameter. -/
  locals : Bindings := .empty
  /-- The innermost open shadow level. -/
  shadow? : Option Bindings := none
  deriving Repr

namespace Scope

def emit (sc : Scope) (op : Op) (left? right? : Option StmtId) (payload : Payload) :
    StmtId × Scope :=
  (sc.nextId, { sc with
    nextId := sc.nextId + 1
    body := sc.body ++ [{ id := sc.nextId, op, left?, right?, payload }] })

/-- Declares a local. A name can be declared once in a method. -/
def declare (sc : Scope) (name : String) (value : StmtId) : Except StructuralError Scope :=
  if sc.locals.contains name then .error (.duplicateLocal name)
  else .ok { sc with locals := sc.locals.insert name value }

/-- Remembers the current value of a local in the open level, unless the level has one already. -/
def capture (sc : Scope) (name : String) : Option Bindings :=
  sc.shadow?.map fun shadow =>
    match shadow.contains name, sc.locals.find? name with
    | false, some old => shadow.insert name old
    | _, _ => shadow

/-- Gives a local a new value, and remembers the value from before the open level. -/
def rebind (sc : Scope) (name : String) (value : StmtId) : Scope :=
  { sc with shadow? := sc.capture name, locals := sc.locals.insert name value }

def openShadow (sc : Scope) : Option Bindings × Scope :=
  (sc.shadow?, { sc with shadow? := some .empty })

/-- Closes the open level in favour of an outer one and returns what it captured. -/
def closeShadow (sc : Scope) (outer? : Option Bindings) : Bindings × Scope :=
  (sc.shadow?.getD .empty, { sc with shadow? := outer? })

/-- Gives every captured local its captured value back and returns the values they had. -/
def restore (sc : Scope) (captured : Bindings) : Bindings × Scope :=
  let latest := captured.names.filterMap fun name => (sc.locals.find? name).map (name, ·)
  (.ofList latest, { sc with locals := sc.locals.union captured })

/-- Merges one captured local of a closed loop level: the value from before and the value after are
unified, and the local is rebound in the enclosing level as if it went from the one to the merge. -/
def mergeLocal (sc : Scope) (name : String) (old : StmtId) : Scope :=
  match sc.locals.find? name with
  | none => sc
  | some new =>
    let (merged, sc) := sc.emit .unify (some old) (some new) .none
    { sc with locals := sc.locals.insert name old }.rebind name merged

/-- Merges every captured local of a closed loop level into the enclosing level. -/
def mergeUp (sc : Scope) (captured : Bindings) : Scope :=
  captured.entries.foldl (fun sc (name, old) => sc.mergeLocal name old) sc

def beginMethod (sc : Scope) : Scope := { nextId := sc.nextId }

def takeBody (sc : Scope) : Body × Scope := (sc.body, { sc with body := [] })

@[simp] theorem emit_fst (sc : Scope) (op : Op) (left? right? : Option StmtId) (payload : Payload) :
    (sc.emit op left? right? payload).1 = sc.nextId := rfl

@[simp] theorem body_emit (sc : Scope) (op : Op) (left? right? : Option StmtId)
    (payload : Payload) : (sc.emit op left? right? payload).2.body =
      sc.body ++ [{ id := sc.nextId, op, left?, right?, payload }] := rfl

@[simp] theorem nextId_emit (sc : Scope) (op : Op) (left? right? : Option StmtId)
    (payload : Payload) : (sc.emit op left? right? payload).2.nextId = sc.nextId + 1 := rfl

@[simp] theorem locals_emit (sc : Scope) (op : Op) (left? right? : Option StmtId)
    (payload : Payload) : (sc.emit op left? right? payload).2.locals = sc.locals := rfl

@[simp] theorem body_rebind (sc : Scope) (name : String) (value : StmtId) :
    (sc.rebind name value).body = sc.body := rfl

@[simp] theorem nextId_rebind (sc : Scope) (name : String) (value : StmtId) :
    (sc.rebind name value).nextId = sc.nextId := rfl

end Scope

/-- The monad of lowering. An error leaves the scope as it was when the error arose. -/
abbrev Build := EStateM StructuralError Scope

namespace Build

def emit (op : Op) (left? right? : Option StmtId := none) (payload : Payload := .none) :
    Build StmtId :=
  modifyGet (·.emit op left? right? payload)

def local? (name : String) : Build (Option StmtId) := return (← get).locals.find? name

def declare (name : String) (value : StmtId) : Build Unit := do
  set (← MonadExcept.ofExcept ((← get).declare name value))

def rebind (name : String) (value : StmtId) : Build Unit := modify (·.rebind name value)

/-- Opens a shadow level and returns the enclosing one. -/
def openShadow : Build (Option Bindings) := modifyGet (·.openShadow)

/-- Closes the open shadow level and returns what it captured. -/
def closeShadow (outer? : Option Bindings) : Build Bindings := modifyGet (·.closeShadow outer?)

/-- Gives captured locals their values back and returns the values they had. -/
def restore (captured : Bindings) : Build Bindings := modifyGet (·.restore captured)

/-- Merges a closed loop level into the enclosing one. -/
def mergeUp (captured : Bindings) : Build Unit := modify (·.mergeUp captured)

def beginMethod : Build Unit := modify (·.beginMethod)

def takeBody : Build Body := modifyGet (·.takeBody)

end Build

end MiniJava.Ssa
