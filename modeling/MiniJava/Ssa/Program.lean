import MiniJava.Ssa.Statement

/-!
# Programs of linear code

A method body is a list of statements. Numbers and labels are meant to be unique in a body, but
nothing here depends on it: the look-ups used by the passes take the last statement that fits, and
`Body.first?` takes the first.
-/

namespace MiniJava.Ssa

abbrev Body := List Statement

namespace Body

def first? (body : Body) (id : StmtId) : Option Statement := body.find? (·.id == id)

/-- The last statement with a given number, and its position. -/
def lastEntry? (body : Body) (id : StmtId) : Option (Statement × Nat) :=
  body.zipIdx.reverse.find? (·.1.id == id)

def last? (body : Body) (id : StmtId) : Option Statement := (body.lastEntry? id).map (·.1)

/-- The position of the last statement with a given number. -/
def lastPosition? (body : Body) (id : StmtId) : Option Nat := (body.lastEntry? id).map (·.2)

/-- The labels that a body defines, with their positions, in order. -/
def labels (body : Body) : List (String × Nat) :=
  body.zipIdx.filterMap fun (s, i) =>
    if s.op = .label then s.label?.map (·, i) else none

/-- The position of the last statement that defines a label. -/
def labelPosition? (body : Body) (label : String) : Option Nat :=
  (body.labels.reverse.find? (·.1 == label)).map (·.2)

/-- The statement numbers of a body in ascending order, each with its last position. -/
def positions (body : Body) : List (StmtId × Nat) :=
  let ids := (body.map (·.id)).eraseDups.mergeSort
  ids.filterMap fun id => (body.lastPosition? id).map (id, ·)

/-- One more than the highest register a body touches. -/
def registersUsed (body : Body) : Nat :=
  (body.filterMap (·.register?)).foldl (fun n r => max n (r + 1)) 0

/-- The first stack slot that no store or load of a body takes. -/
def nextFreeSlot (body : Body) : Nat :=
  (body.filterMap fun s => if s.op = .store ∨ s.op = .load then s.slot? else none).foldl
    (fun n slot => max n (slot + 1)) 0

end Body

structure Field where
  name : String
  decl : TypeName
  type? : Option TypeId := none
  deriving DecidableEq, Repr

/-- A method. The entry point of a program belongs to no class. -/
structure Method where
  name : String
  owner? : Option String
  params : List Ast.VarDecl := []
  returnDecl? : Option TypeName := none
  body : Body := []
  paramTypes : List TypeId := []
  returnType? : Option TypeId := none
  deriving DecidableEq, Repr

namespace Method

def isMain (m : Method) : Bool := m.owner?.isNone

/-- The name of a method in messages and statistics. -/
def qualifiedName (m : Method) : String :=
  match m.owner? with
  | some owner => s!"{owner}.{m.name}"
  | none => m.name

end Method

structure ClassDef where
  name : String
  parent? : Option String
  fields : List Field
  methods : List Method
  deriving DecidableEq, Repr

namespace ClassDef

def field? (c : ClassDef) (name : String) : Option Field := c.fields.find? (·.name == name)

def method? (c : ClassDef) (name : String) : Option Method := c.methods.find? (·.name == name)

end ClassDef

inductive MethodRef where
  | main
  | member (owner method : String)
  deriving DecidableEq, Repr

/-- Changes the first element that satisfies a condition. -/
def modifyFirst {α : Type} (p : α → Bool) (f : α → α) : List α → List α
  | [] => []
  | a :: as => if p a then f a :: as else a :: modifyFirst p f as

/-- A program. `types` holds more than the built-in types only after type checking. -/
structure Program where
  main : Method
  classes : List ClassDef
  types : TypeTable := .builtin
  nextId : StmtId
  deriving DecidableEq, Repr

namespace Program

def class? (p : Program) (name : String) : Option ClassDef := p.classes.find? (·.name == name)

/-- The method that a reference names: the first of its name in the first class of its name. -/
def method? (p : Program) : MethodRef → Option Method
  | .main => some p.main
  | .member owner method => (p.class? owner).bind (·.method? method)

/-- Gives the method that a reference names another body. -/
def setBody (p : Program) (body : Body) : MethodRef → Program
  | .main => { p with main := { p.main with body } }
  | .member owner method =>
    { p with
      classes := modifyFirst (·.name == owner) (fun c =>
        { c with methods := modifyFirst (·.name == method) (fun m => { m with body }) c.methods })
        p.classes }

/-- All methods: the entry point, then the methods of the classes in order. -/
def methods (p : Program) : List Method := p.main :: p.classes.flatMap (·.methods)

def fresh (p : Program) : StmtId × Program := (p.nextId, { p with nextId := p.nextId + 1 })

/-- Makes sure that numbers below `n` are not handed out any more. -/
def raiseNextId (p : Program) (n : StmtId) : Program := { p with nextId := max p.nextId n }

def mapMethods (p : Program) (f : Method → Method) : Program :=
  { p with
    main := f p.main
    classes := p.classes.map fun c => { c with methods := c.methods.map f } }

end Program

end MiniJava.Ssa
