import MiniJava.Ssa.Program
import MiniJava.StructuralError

/-!
# The class hierarchy

The classes of a program are added to the table of types parent first. Each pass goes over the
classes that are still pending, in order, and adds those whose parent is in the table. A pass that
adds none means that the parents of the rest are unknown or lead back to themselves.
-/

namespace MiniJava.TypeTable

open Ssa

/-- The type below which a class is added: the root if it names no parent, and otherwise the class it
names, once that is in the table. Arrays cannot be extended. -/
def parentOf? (t : TypeTable) (c : ClassDef) : Option TypeId :=
  match c.parent? with
  | none => some .object
  | some name => (t.lookup? name).filter fun id => t.isObject id && id != .intArray

/-- One pass: adds the classes whose parents are known and returns the others. -/
def addReady (t : TypeTable) : List ClassDef → TypeTable × List ClassDef
  | [] => (t, [])
  | c :: cs =>
    match t.parentOf? c with
    | some parent => (t.addClass c.name parent).addReady cs
    | none =>
      let (t, pending) := t.addReady cs
      (t, c :: pending)

def addClasses (t : TypeTable) (classes : List ClassDef) : Except StructuralError TypeTable :=
  if classes.isEmpty then .ok t
  else
    let next := t.addReady classes
    if next.2.length < classes.length then next.1.addClasses next.2
    else .error (.cyclicInheritance (next.2.map (·.name)))
termination_by classes.length

/-- The table of the types of a program with these classes. -/
def ofClasses (classes : List ClassDef) : Except StructuralError TypeTable :=
  match classes.find? fun c => (builtin.lookup? c.name).isSome with
  | some c => .error (.builtinClass c.name)
  | none => builtin.addClasses classes

def resolve (t : TypeTable) (name : TypeName) : Except StructuralError TypeId :=
  match t.lookup? name.text with
  | some id => .ok id
  | none => .error (.unresolvedType name)

end MiniJava.TypeTable
