/-!
# Static types and the table of the types of a program

Types are numbered in the order in which they were added. The five built-in types come first, then
the classes, each with the number of its parent. A later type of the same name hides an earlier one
from `lookup?`.
-/

namespace MiniJava

abbrev TypeId := Nat

namespace TypeId

def object : TypeId := 0

def int : TypeId := 1

def boolean : TypeId := 2

def intArray : TypeId := 3

def void : TypeId := 4

end TypeId

/-- A static type. Only the root of the reference types has no parent. -/
inductive StaticType where
  | int
  | boolean
  | void
  | object (name : String) (parent? : Option TypeId)
  deriving DecidableEq, Repr

/-- How values of a type are represented when the program runs. -/
inductive ValueKind where
  | int
  | boolean
  | reference
  | void
  deriving DecidableEq, Repr

namespace StaticType

def name : StaticType → String
  | int => "int"
  | boolean => "boolean"
  | void => "void"
  | object name _ => name

def parent? : StaticType → Option TypeId
  | object _ parent? => parent?
  | _ => none

def isObject : StaticType → Bool
  | object _ _ => true
  | _ => false

def kind : StaticType → ValueKind
  | int => .int
  | boolean => .boolean
  | void => .void
  | object _ _ => .reference

end StaticType

/-- The types of a program, in the order of their numbers. -/
structure TypeTable where
  entries : List StaticType
  deriving DecidableEq, Repr

namespace TypeTable

def builtin : TypeTable :=
  ⟨[.object "Object" none, .int, .boolean, .object "int[]" (some .object), .void]⟩

def get? (t : TypeTable) (id : TypeId) : Option StaticType := t.entries[id]?

/-- Adds a class below a parent; the class gets the next number. -/
def addClass (t : TypeTable) (name : String) (parent : TypeId) : TypeTable :=
  ⟨t.entries ++ [.object name (some parent)]⟩

def nextTypeId (t : TypeTable) : TypeId := t.entries.length

def lookup? (t : TypeTable) (name : String) : Option TypeId :=
  (t.entries.zipIdx.reverse.find? (·.1.name == name)).map (·.2)

def name? (t : TypeTable) (id : TypeId) : Option String := (t.get? id).map (·.name)

/-- The name of a type for a message; a number that is not in the table has none. -/
def name (t : TypeTable) (id : TypeId) : String := (t.name? id).getD ""

def parent? (t : TypeTable) (id : TypeId) : Option TypeId := (t.get? id).bind (·.parent?)

def isObject (t : TypeTable) (id : TypeId) : Bool := ((t.get? id).map (·.isObject)).getD false

/-- The first `n` types on the chain of parents of a type. -/
def ancestorsUpTo (t : TypeTable) : Nat → TypeId → List TypeId
  | 0, _ => []
  | n + 1, id =>
    id :: match t.parent? id with
      | some parent => ancestorsUpTo t n parent
      | none => []

/-- A type, its parent, and so on up to the root. A chain without a circle has no more types than
the table. -/
def ancestors (t : TypeTable) (id : TypeId) : List TypeId := t.ancestorsUpTo (t.entries.length + 1) id

/-- Whether `sub` may be used where `sup` is expected. Types that are not references are only
compatible with themselves. -/
def isSubtype (t : TypeTable) (sub sup : TypeId) : Bool := (t.ancestors sub).contains sup

end TypeTable

end MiniJava
