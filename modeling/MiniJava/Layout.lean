import MiniJava.Ssa.Program

/-!
# Layout of objects and dispatch tables

An object is a header word, which holds the address of the dispatch table of its class, followed by
the fields of the classes on its chain, the root's first. A dispatch table lists each method name
once, in the order in which the names are first declared from the root down; a method that is declared
again keeps its slot.
-/

namespace MiniJava

def wordSize : Nat := 4

/-- The byte offset of the word that is `n` words away. Offsets are machine words themselves, so one
that is out of their range wraps around. -/
def byteOffset (n : Int) : Int32 := .ofInt (wordSize * n)

/-- A slot of a dispatch table: a method name and the class whose method it is. -/
structure DispatchEntry where
  method : String
  owner : String
  deriving DecidableEq, Repr

namespace Ssa

def otherClasses (classes : List ClassDef) (name : String) : List ClassDef :=
  classes.filter (·.name != name)

theorem length_otherClasses_lt {classes : List ClassDef} {c : ClassDef} (h : c ∈ classes) :
    (otherClasses classes c.name).length < classes.length :=
  List.length_filter_lt_length_iff_exists.2 ⟨c, h, by simp⟩

/-- A class and its ancestors among some classes. A class is taken out once it is visited, so the
chain ends at a parent that is unknown or that was visited before. -/
def chainIn (classes : List ClassDef) (name : String) : List ClassDef :=
  match _ : classes.find? (·.name == name) with
  | none => []
  | some c =>
    c :: match c.parent? with
      | none => []
      | some parent => chainIn (otherClasses classes c.name) parent
termination_by classes.length
decreasing_by exact length_otherClasses_lt (List.mem_of_find?_eq_some ‹_›)

/-- The number of fields of some classes together. -/
def fieldCount : List ClassDef → Nat
  | [] => 0
  | c :: cs => c.fields.length + fieldCount cs

/-- The byte offset of a field, given the chain of a class from the leaf up. The nearest declaration
counts, and the fields of the classes above it come before. -/
def fieldOffsetIn? (field : String) : List ClassDef → Option Nat
  | [] => none
  | c :: ancestors =>
    match c.fields.findIdx? (·.name == field) with
    | some index => some (wordSize * (1 + fieldCount ancestors + index))
    | none => fieldOffsetIn? field ancestors

/-- Adds a method to a dispatch table: in its old slot, or in a new one at the end. -/
def addMethod (owner : String) (entries : List DispatchEntry) (method : String) :
    List DispatchEntry :=
  if entries.any (·.method == method) then
    entries.map fun e => if e.method = method then { e with owner } else e
  else entries ++ [⟨method, owner⟩]

/-- Adds the methods of a class to a dispatch table. -/
def addMethods (entries : List DispatchEntry) (c : ClassDef) : List DispatchEntry :=
  (c.methods.map (·.name)).foldl (addMethod c.name) entries

namespace Program

def chain (p : Program) (name : String) : List ClassDef := chainIn p.classes name

def objectSize? (p : Program) (name : String) : Option Nat :=
  (p.class? name).map fun _ => 1 + fieldCount (p.chain name)

def fieldOffset? (p : Program) (name field : String) : Option Nat :=
  fieldOffsetIn? field (p.chain name)

def dispatchTable (p : Program) (name : String) : List DispatchEntry :=
  (p.chain name).reverse.foldl addMethods []

/-- The slot of a method in the dispatch table of a class. -/
def methodSlot? (p : Program) (name method : String) : Option Nat :=
  (p.dispatchTable name).findIdx? (·.method == method)

end Program

end Ssa

end MiniJava
