import Mathlib.Data.List.Forall2
import Mathlib.Logic.Relation
import MiniJava.Ast

/-!
# Typing rules of the source

What it means that a program is well typed, in terms of its syntax tree alone. Types are known by their
names, as declarations write them. Members are found along the chain of a class, and a name that no
local has is a field of `this`.
-/

namespace MiniJava.Ast

/-! ## Types and classes -/

def builtinNames : List String := ["Object", "int", "boolean", "int[]", "void"]

namespace Program

variable (p : Program)

def IsType (n : String) : Prop := n ∈ builtinNames ∨ ∃ c ∈ p.classes, c.name = n

inductive Extends : String → String → Prop
  | array : Extends "int[]" "Object"
  | root {c : ClassDecl} (hc : c ∈ p.classes) (h : c.parent? = none) : Extends c.name "Object"
  | parent {c : ClassDecl} {above : String} (hc : c ∈ p.classes) (h : c.parent? = some above) :
    Extends c.name above

def Subtype : String → String → Prop := Relation.ReflTransGen p.Extends

/-- The chain of a class ends: at a class without parent or at the root of all classes. -/
inductive Grounded : String → Prop
  | object : Grounded "Object"
  | root {c : ClassDecl} (hc : c ∈ p.classes) (h : c.parent? = none) : Grounded c.name
  | parent {c : ClassDecl} {above : String} (hc : c ∈ p.classes) (h : c.parent? = some above)
    (hp : Grounded above) : Grounded c.name

/-- What is declared along the chain of a class, where the nearest declaration counts. -/
inductive Inherits {α : Type} (own : ClassDecl → Option α) : String → α → Prop
  | own {c : ClassDecl} {a : α} (hc : c ∈ p.classes) (h : own c = some a) : Inherits own c.name a
  | inherited {c : ClassDecl} {above : String} {a : α} (hc : c ∈ p.classes) (h : own c = none)
    (hp : c.parent? = some above) (ha : Inherits own above a) : Inherits own c.name a

def HasField (owner field : String) (type : TypeName) : Prop :=
  p.Inherits (fun c => (c.fields.find? (·.name == field)).map (·.type)) owner type

def HasMethod (owner method : String) (decl : MethodDecl) : Prop :=
  p.Inherits (fun c => c.methods.find? (·.name == method)) owner decl

end Program

/-! ## Expressions -/

/-- What names mean: the program, the class of `this` and the parameters and locals. -/
structure Context where
  program : Program
  /-- The entry point has no `this`. -/
  this? : Option String
  locals : List VarDecl

def Context.local? (Γ : Context) (x : String) : Option VarDecl := Γ.locals.find? (·.name == x)

inductive Context.Names (Γ : Context) : String → String → Prop
  | bound {x : String} {d : VarDecl} (h : Γ.local? x = some d) : Names Γ x d.type.text
  | field {x owner : String} {type : TypeName} (h : Γ.local? x = none) (hthis : Γ.this? = some owner)
    (hf : Γ.program.HasField owner x type) : Names Γ x type.text

/-- The type of the operands of an operator and that of its result; equality compares any two. -/
def signature? : BinOp → Option (String × String)
  | .and | .or => some ("boolean", "boolean")
  | .lt | .le | .gt | .ge => some ("int", "boolean")
  | .add | .sub | .mul | .div | .mod => some ("int", "int")
  | .eq | .ne => none

inductive Expr.HasType (Γ : Context) : Expr → String → Prop
  | int (n : Int32) : HasType Γ (.intLit n) "int"
  | boolean (b : Bool) : HasType Γ (.boolLit b) "boolean"
  | this {owner : String} (h : Γ.this? = some owner) : HasType Γ .this owner
  | var {x τ : String} (h : Γ.Names x τ) : HasType Γ (.var x) τ
  | binary {op : BinOp} {l r : Expr} {σ τ : String} (h : signature? op = some (σ, τ))
    (hl : HasType Γ l σ) (hr : HasType Γ r σ) : HasType Γ (.binary op l r) τ
  | equality {op : BinOp} {l r : Expr} {σ τ : String} (h : signature? op = none)
    (hl : HasType Γ l σ) (hr : HasType Γ r τ) : HasType Γ (.binary op l r) "boolean"
  | not {e : Expr} (h : HasType Γ e "boolean") : HasType Γ (.not e) "boolean"
  | index {target i : Expr} (ht : HasType Γ target "int[]") (hi : HasType Γ i "int") :
    HasType Γ (.index target i) "int"
  | length {target : Expr} (h : HasType Γ target "int[]") :
    HasType Γ (.member target "length") "int"
  | member {target : Expr} {x σ : String} {type : TypeName} (h : HasType Γ target σ)
    (hf : Γ.program.HasField σ x type) : HasType Γ (.member target x) type.text
  | call {target : Expr} {method σ : String} {args : List Expr} {τs : List String}
    {decl : MethodDecl} (h : HasType Γ target σ) (hm : Γ.program.HasMethod σ method decl)
    (hargs : List.Forall₂ (HasType Γ) args τs)
    (hsub : List.Forall₂ (fun τ d => Γ.program.Subtype τ d.type.text) τs decl.params) :
    HasType Γ (.call target method args) decl.returnType.text
  | newObject {c : ClassDecl} (hc : c ∈ Γ.program.classes) : HasType Γ (.newObject c.name) c.name
  | newIntArray {size : Expr} (h : HasType Γ size "int") : HasType Γ (.newIntArray size) "int[]"
  | assignVar {x σ τ : String} {value : Expr} (hx : Γ.Names x σ) (hv : HasType Γ value τ)
    (hsub : Γ.program.Subtype τ σ) : HasType Γ (.assign (.var x) value) τ
  | assignMember {target value : Expr} {x σ τ : String} {type : TypeName}
    (h : HasType Γ target σ) (hf : Γ.program.HasField σ x type) (hv : HasType Γ value τ)
    (hsub : Γ.program.Subtype τ type.text) : HasType Γ (.assign (.member target x) value) τ
  | assignIndex {target i value : Expr} (ht : HasType Γ target "int[]") (hi : HasType Γ i "int")
    (hv : HasType Γ value "int") : HasType Γ (.assign (.index target i) value) "int"

/-! ## Statements and programs -/

inductive Stmt.WellTyped (Γ : Context) : Stmt → Prop
  | block {stmts : List Stmt} (h : ∀ s ∈ stmts, WellTyped Γ s) : WellTyped Γ (.block stmts)
  | ifThen {id : NodeId} {condition : Expr} {thenBranch : Stmt}
    (hc : condition.HasType Γ "boolean") (ht : WellTyped Γ thenBranch) :
    WellTyped Γ (.ifThen id condition thenBranch)
  | ifElse {id : NodeId} {condition : Expr} {thenBranch elseBranch : Stmt}
    (hc : condition.HasType Γ "boolean") (ht : WellTyped Γ thenBranch)
    (he : WellTyped Γ elseBranch) : WellTyped Γ (.ifElse id condition thenBranch elseBranch)
  | loop {id : NodeId} {condition : Expr} {body : Stmt} (hc : condition.HasType Γ "boolean")
    (hb : WellTyped Γ body) : WellTyped Γ (.while id condition body)
  | print {value : Expr} (h : value.HasType Γ "int") : WellTyped Γ (.print value)
  | expr {value : Expr} {τ : String} (h : value.HasType Γ τ) : WellTyped Γ (.expr value)

def MethodDecl.context (p : Program) (owner : String) (m : MethodDecl) : Context :=
  { program := p, this? := some owner, locals := m.params ++ m.locals }

def Program.mainContext (p : Program) : Context := { program := p, this? := none, locals := [] }

structure MethodDecl.WellTyped (p : Program) (owner : String) (m : MethodDecl) : Prop where
  locals : ∀ d ∈ m.locals, p.IsType d.type.text
  body : ∀ s ∈ m.body, s.WellTyped (m.context p owner)
  result : ∃ τ, m.result.HasType (m.context p owner) τ ∧ p.Subtype τ m.returnType.text

structure ClassDecl.Resolves (p : Program) (c : ClassDecl) : Prop where
  fields : ∀ f ∈ c.fields, p.IsType f.type.text
  params : ∀ m ∈ c.methods, ∀ d ∈ m.params, p.IsType d.type.text
  results : ∀ m ∈ c.methods, p.IsType m.returnType.text

structure Program.WellTyped (p : Program) : Prop where
  names : ∀ c ∈ p.classes, c.name ∉ builtinNames
  chains : ∀ c ∈ p.classes, p.Grounded c.name
  types : ∀ c ∈ p.classes, c.Resolves p
  methods : ∀ c ∈ p.classes, ∀ m ∈ c.methods, m.WellTyped p c.name
  main : p.main.body.WellTyped p.mainContext

end MiniJava.Ast
